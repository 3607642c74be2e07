import AtomicCss.Proofs.Text.Cut
import AtomicCss.Proofs.Text.Replacement

/-! Quoted strings in a text. A string goes from a quote that opens to the one that closes it. It
stays whole when the text is split or trimmed, or when a character is replaced that it does not have. Where
a text leaves no quote open, what is quoted belongs to a string. -/
namespace AtomicCss.Text

theorem next_quote {c : Char} (quote : Scan.isQuote c = true) : Scan.plain.next c = .quoted c := by
  have backslash : c ≠ '\\' := by
    rintro rfl
    cases quote
  simp [Scan.next, backslash, quote]

/-- Inside of a quote: the quote ends with the text, and not before. -/
inductive Closes : Scan → Text → Prop
  | last {s : Scan} {c : Char} (inside : s.outside = false) (ends : s.next c = .plain) : Closes s [c]
  | more {s : Scan} {c : Char} {t : Text} (inside : s.outside = false) (later : Closes (s.next c) t) :
      Closes s (c :: t)

/-- A text from an opening quote to its closing quote. -/
def Quoted (q : Text) : Prop := ∃ c t, q = c :: t ∧ Scan.isQuote c = true ∧ Closes (.quoted c) t

/-- A string of a text. -/
def StringOf (q t : Text) : Prop :=
  Quoted q ∧ ∃ before behind, t = before ++ (q ++ behind) ∧ Scan.after .plain before = .plain

/-- The quote is still open in front of each character. -/
theorem Closes.inside_at {s : Scan} {a b : Text} {c : Char} (closes : Closes s (a ++ c :: b)) :
    (s.after a).outside = false := by
  generalize whole : a ++ c :: b = t at closes
  induction closes generalizing a with
  | last inside _ =>
    cases a with
    | nil => exact inside
    | cons d a => simp at whole
  | more inside _ ih =>
    cases a with
    | nil => exact inside
    | cons d a =>
      obtain ⟨rfl, behind⟩ := List.cons.inj whole
      exact ih behind

theorem Closes.getLast {s : Scan} (sound : s.Sound) {t : Text} (closes : Closes s t) :
    ∃ front c, t = front ++ [c] ∧ Scan.isQuote c = true := by
  induction closes with
  | @last s c inside ends =>
    refine ⟨[], c, rfl, ?_⟩
    cases s with
    | quoted q =>
      by_cases same : c = q
      · exact same ▸ sound
      · simp only [Scan.next, same, if_false] at ends
        split at ends <;> cases ends
    | quotedEscaped q => cases ends
    | plain => cases inside
    | escaped => cases inside
  | @more s c t _ _ ih =>
    obtain ⟨front, d, rfl, quote⟩ := ih (Scan.sound_next sound c)
    exact ⟨c :: front, d, rfl, quote⟩

/-- Without quotes and backslashes inside. -/
theorem quoted_plain {c : Char} {inner : Text} (quote : Scan.isQuote c = true)
    (plain : ∀ d ∈ inner, d ≠ '\\' ∧ Scan.isQuote d = false) : Quoted (c :: (inner ++ [c])) := by
  refine ⟨c, inner ++ [c], rfl, quote, ?_⟩
  have ends : (Scan.quoted c).next c = .plain := by
    have other : c ≠ '\\' := by
      rintro rfl
      cases quote
    simp [Scan.next, other]
  induction inner with
  | nil => exact .last rfl ends
  | cons d inner ih =>
    obtain ⟨first, others⟩ := List.forall_mem_cons.mp plain
    have stays : (Scan.quoted c).next d = .quoted c := by
      have other : d ≠ c := by
        rintro rfl
        rw [quote] at first
        cases first.2
      simp [Scan.next, first.1, other]
    refine .more rfl ?_
    rw [stays]
    exact ih others

theorem next_outside {s : Scan} {c : Char} (inside : s.outside = false) (left : (s.next c).outside = true) :
    s.next c = .plain := by
  cases s with
  | quoted q => grind [Scan.next, Scan.outside]
  | quotedEscaped q => cases left
  | plain => cases inside
  | escaped => cases inside

theorem exists_closes {s : Scan} {t : Text} (inside : s.outside = false) (ends : (s.after t).outside = true) :
    ∃ u rest, t = u ++ rest ∧ Closes s u := by
  induction t generalizing s with
  | nil => simp [inside] at ends
  | cons c t ih =>
    cases still : (s.next c).outside with
    | false =>
      obtain ⟨u, rest, rfl, closes⟩ := ih still ends
      exact ⟨c :: u, rest, rfl, .more inside closes⟩
    | true => exact ⟨[c], t, rfl, .last inside (next_outside inside still)⟩

theorem Closes.behind {s : Scan} {a u : Text} (stays : ∀ p, p <+: a → (s.after p).outside = false)
    (closes : Closes (s.after a) u) : Closes s (a ++ u) := by
  induction a generalizing s with
  | nil => exact closes
  | cons c a ih =>
    refine .more (stays [] List.nil_prefix) (ih (fun p before => ?_) closes)
    exact stays (c :: p) (List.cons_prefix_cons.mpr ⟨rfl, before⟩)

/-- Inside of a quote there is one that was opened last. -/
theorem exists_opening {a : Text} (inside : (Scan.after .plain a).outside = false) :
    ∃ before c inner, a = before ++ c :: inner ∧ Scan.after .plain before = .plain ∧ Scan.isQuote c = true ∧
      ∀ p, p <+: inner → ((Scan.quoted c).after p).outside = false := by
  induction a using List.reverseRecOn with
  | nil => cases inside
  | append_singleton a d ih =>
    cases here : (Scan.after .plain a).outside with
    | false =>
      obtain ⟨before, c, inner, rfl, plain, quote, stays⟩ := ih here
      refine ⟨before, c, inner ++ [d], by simp, plain, quote, fun p leads => ?_⟩
      rcases List.prefix_concat_iff.mp leads with rfl | leads
      · simpa [plain, next_quote quote] using inside
      · exact stays p leads
    | true =>
      rw [Scan.after_append] at inside
      cases state : Scan.after .plain a with
      | plain =>
        rw [state, Scan.after_cons, Scan.after_nil] at inside
        have opens : Scan.isQuote d = true := by
          simp only [Scan.next] at inside
          split at inside
          · cases inside
          · split at inside
            · assumption
            · cases inside
        refine ⟨a, d, [], rfl, state, opens, fun p leads => ?_⟩
        obtain rfl := List.prefix_nil.mp leads
        rfl
      | escaped =>
        rw [state] at inside
        cases inside
      | quoted q => simp [state, Scan.outside] at here
      | quotedEscaped q => simp [state, Scan.outside] at here

/-- Where no quote is left open, a character is quoted exactly if it is in a string. -/
theorem mem_string_iff {t : Text} (closed : (Scan.after .plain t).outside = true) {c : Char}
    (other : Scan.isQuote c = false) :
    (∀ q, StringOf q t → c ∉ q) ↔ ∀ cut ∈ splits c t, (Scan.after .plain cut.1).outside = true := by
  constructor
  · rintro absent ⟨a, b⟩ member
    by_contra quoted
    have whole := mem_splits.mp member
    obtain ⟨before, d, inner, rfl, plain, quote, stays⟩ := exists_opening (Bool.eq_false_iff.mpr quoted)
    have state : Scan.after .plain (before ++ d :: inner) = (Scan.quoted d).after inner := by
      simp [plain, next_quote quote]
    have ends : (((Scan.quoted d).after inner).after (c :: b)).outside = true := by
      rw [whole, Scan.after_append, state] at closed
      exact closed
    obtain ⟨u, rest, cut, closes⟩ := exists_closes (stays inner (List.prefix_refl _)) ends
    refine absent (d :: (inner ++ u)) ⟨⟨d, inner ++ u, rfl, quote, closes.behind stays⟩, before, rest, ?_, plain⟩ ?_
    · simp [whole, cut]
    · cases u with
      | nil => cases closes
      | cons e u =>
        obtain ⟨rfl, -⟩ := List.cons.inj cut
        simp
  · rintro outside q ⟨⟨d, u, rfl, quote, closes⟩, before, behind, rfl, plain⟩ member
    rcases List.mem_cons.mp member with rfl | member
    · rw [quote] at other
      cases other
    · obtain ⟨x, y, rfl⟩ := List.append_of_mem member
      have free := outside (before ++ d :: x, y ++ behind) (mem_splits.mpr (by simp))
      have inside := closes.inside_at
      simp only [Scan.after_append, Scan.after_cons, plain, next_quote quote] at free
      rw [inside] at free
      cases free

/-- Splitting does not look into a string. -/
theorem Closes.segmentFrom_eq {s : Scan} {u : Text} (closes : Closes s u) (sep : Char) (closers : List Char)
    (rest : Text) : segmentFrom sep s closers (u ++ rest) = glue u (segmentFrom sep .plain closers rest) := by
  have shut {s : Scan} (inside : s.outside = false) (c : Char) : s.live c = false := by
    cases s with
    | plain => cases inside
    | escaped => cases inside
    | _ => rfl
  induction closes with
  | @last s c inside ends =>
    rw [List.singleton_append, segmentFrom, shut inside, ends]
    obtain ⟨piece, pieces, cut⟩ := List.exists_cons_of_ne_nil (segmentFrom_ne_nil sep .plain closers rest)
    simp [cut, consHead]
  | @more s c t inside _ ih =>
    rw [List.cons_append, segmentFrom, shut inside]
    simp [ih, consHead_glue]

theorem Quoted.segmentFrom_eq {q : Text} (quoted : Quoted q) (sep : Char) (closers : List Char) (rest : Text) :
    segmentFrom sep .plain closers (q ++ rest) = glue q (segmentFrom sep .plain closers rest) := by
  obtain ⟨c, u, rfl, quote, closes⟩ := quoted
  have shut : Scan.plain.live c = false := by simp [Scan.live, quote]
  rw [List.cons_append, segmentFrom, shut, next_quote quote]
  simp [closes.segmentFrom_eq, consHead_glue]

/-- Each string is a part of one piece. -/
theorem StringOf.mem_segment {q t : Text} (string : StringOf q t) (sep : Char) :
    ∃ piece ∈ segment sep t, q <:+: piece := by
  obtain ⟨quoted, before, behind, rfl, plain⟩ := string
  suffices whole : ∀ s closers, Scan.after s before = .plain →
      ∃ piece ∈ segmentFrom sep s closers (before ++ (q ++ behind)), q <:+: piece from whole .plain [] plain
  clear plain
  induction before with
  | nil =>
    intro s closers plain
    obtain rfl : s = .plain := plain
    obtain ⟨piece, pieces, cut⟩ := List.exists_cons_of_ne_nil (segmentFrom_ne_nil sep .plain closers behind)
    rw [List.nil_append, quoted.segmentFrom_eq, cut]
    exact ⟨q ++ piece, List.mem_cons_self, (List.prefix_append q piece).isInfix⟩
  | cons c before ih =>
    intro s closers plain
    rw [List.cons_append, segmentFrom]
    split
    · obtain ⟨piece, member, inside⟩ := ih (s.next c) closers plain
      exact ⟨piece, List.mem_cons_of_mem [] member, inside⟩
    · obtain ⟨piece, member, inside⟩ := ih (s.next c) (if s.live c then due closers c else closers) plain
      generalize segmentFrom sep (s.next c) _ _ = pieces at member
      cases pieces with
      | nil => cases member
      | cons first pieces =>
        rcases List.mem_cons.mp member with rfl | member
        · exact ⟨c :: piece, List.mem_cons_self, List.infix_cons inside⟩
        · exact ⟨piece, List.mem_cons_of_mem _ member, inside⟩

theorem infix_trimStart {q t : Text} (visible : ∀ c, q.head? = some c → isBlank c = false) (inside : q <:+: t) :
    q <:+: trimStart t := by
  cases q with
  | nil => exact ⟨[], trimStart t, rfl⟩
  | cons c q =>
    obtain ⟨a, b, rfl⟩ := inside
    have kept : (c :: q ++ b).dropWhile isBlank = c :: q ++ b := by simp [visible c rfl]
    rw [List.append_assoc, trimStart, List.dropWhile_append]
    split
    · rw [kept]
      exact (List.prefix_append (c :: q) b).isInfix
    · exact ⟨_, b, List.append_assoc ..⟩

/-- What begins and ends visibly is not trimmed away. -/
theorem infix_trim {q t : Text} (first : ∀ c, q.head? = some c → isBlank c = false)
    (last : ∀ c, q.getLast? = some c → isBlank c = false) (inside : q <:+: t) : q <:+: trim t := by
  have start := infix_trimStart first inside
  obtain ⟨a, b, whole⟩ := start
  have mirrored : q.reverse <:+: (trimStart t).reverse := ⟨b.reverse, a.reverse, by simp [← whole]⟩
  obtain ⟨a', b', ends⟩ := infix_trimStart (by simpa [List.head?_reverse] using last) mirrored
  refine ⟨b'.reverse, a'.reverse, ?_⟩
  have same : trim t = (trimStart (trimStart t).reverse).reverse := rfl
  simp [same, ← ends]

theorem isBlank_of_isQuote {c : Char} (quote : Scan.isQuote c = true) : isBlank c = false := by
  simp only [Scan.isQuote, Bool.or_eq_true, beq_iff_eq] at quote
  rcases quote with rfl | rfl <;> rfl

theorem Quoted.infix_trim {q t : Text} (quoted : Quoted q) (inside : q <:+: t) : q <:+: trim t := by
  obtain ⟨c, u, rfl, quote, closes⟩ := quoted
  obtain ⟨front, d, rfl, quote'⟩ := closes.getLast (s := .quoted c) quote
  refine Text.infix_trim (fun e first => ?_) (fun e last => ?_) inside
  · obtain rfl : c = e := by simpa using first
    exact isBlank_of_isQuote quote
  · obtain rfl : d = e := by simpa [List.getLast?_cons] using last
    exact isBlank_of_isQuote quote'

/-- A character that does not occur is replaced around the part. -/
theorem infix_replace {c : Char} {q t : Text} (u : Text) (absent : c ∉ q) (inside : q <:+: t) :
    q <:+: replace c u t := by
  obtain ⟨a, b, rfl⟩ := inside
  rw [replace_append, replace_append, replace_absent absent]
  exact ⟨_, _, rfl⟩

/-- What is put in is there as often as there is a place for it. -/
theorem infix_replace_image {c : Char} {t : Text} (u : Text) (member : c ∈ t) : u <:+: replace c u t := by
  obtain ⟨a, b, rfl⟩ := List.append_of_mem member
  rw [replace_append, replace_here]
  exact ⟨replace c u a, replace c u b, by simp⟩

end AtomicCss.Text
