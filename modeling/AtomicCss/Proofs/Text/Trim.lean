import AtomicCss.Proofs.Text.Track
import Mathlib.Data.List.DropRight

/-! Blank characters mean nothing to the reader of brackets. Trimming removes
them from both ends and keeps everything between the first visible character
and the last. -/
namespace AtomicCss.Text

theorem blank_neutral {c : Char} (blank : isBlank c = true) : Neutral c :=
  neutral_of_class (p := isBlank) rfl blank

/-- The characters that are not blank. -/
def ink (t : Text) : Text := t.filter fun c => !isBlank c

@[simp] theorem ink_append (a b : Text) : ink (a ++ b) = ink a ++ ink b := by simp [ink]

theorem ne_space {c : Char} (visible : isBlank c = false) : c ≠ ' ' := by
  rintro rfl
  cases visible

theorem ink_space (t : Text) : ink (' ' :: t) = ink t := rfl

theorem ink_visible {c : Char} (visible : isBlank c = false) (t : Text) : ink (c :: t) = c :: ink t := by
  simp [ink, visible]

theorem ink_blank {t : Text} (blank : ∀ c ∈ t, isBlank c = true) : ink t = [] := by
  simp [ink, List.filter_eq_nil_iff]
  exact blank

theorem mem_ink {c : Char} (visible : isBlank c = false) (t : Text) : c ∈ ink t ↔ c ∈ t := by
  simp [ink, visible]

/-- What trimming takes away. -/
theorem trim_parts (t : Text) : ∃ before behind, t = before ++ (trim t ++ behind) ∧
    (∀ c ∈ before, isBlank c = true) ∧ ∀ c ∈ behind, isBlank c = true := by
  refine ⟨t.takeWhile isBlank, ((trimStart t).reverse.takeWhile isBlank).reverse, ?_, ?_, ?_⟩
  · have last : trim t ++ ((trimStart t).reverse.takeWhile isBlank).reverse = trimStart t := by
      rw [trim, trimEnd, ← List.reverse_append, List.takeWhile_append_dropWhile, List.reverse_reverse]
    rw [last, trimStart, List.takeWhile_append_dropWhile]
  · exact fun c member => by simpa using List.mem_takeWhile_imp member
  · intro c member
    rw [List.mem_reverse] at member
    exact List.mem_takeWhile_imp member

theorem trim_head {t rest : Text} {c : Char} (same : trim t = c :: rest) : isBlank c = false := by
  obtain ⟨behind, whole⟩ : trim t <+: trimStart t := List.rdropWhile_prefix isBlank _
  have first := List.head?_dropWhile_not isBlank t
  rw [show t.dropWhile isBlank = trimStart t from rfl, ← whole, same] at first
  exact first

theorem trimEnd_last {t front : Text} {c : Char} (same : trimEnd t = front ++ [c]) :
    isBlank c = false := by
  have some_left : t.rdropWhile isBlank ≠ [] := by
    change trimEnd t ≠ []
    simp [same]
  have last := List.rdropWhile_last_not isBlank _ some_left
  have whole : t.rdropWhile isBlank = front ++ [c] := same
  simpa [whole] using last

theorem trim_last {t front : Text} {c : Char} (same : trim t = front ++ [c]) :
    isBlank c = false := trimEnd_last same

/-- Visible characters at both ends keep trimming away. -/
theorem trim_eq_self {t : Text} (first : ∀ c, t.head? = some c → isBlank c = false)
    (last : ∀ c, t.getLast? = some c → isBlank c = false) : trim t = t := by
  have start : trimStart t = t := by
    cases t with
    | nil => rfl
    | cons c rest => simp [trimStart, first c rfl]
  rw [trim, start]
  refine (List.rdropWhile_eq_self_iff (p := isBlank)).mpr fun some_left => ?_
  simp [last _ (List.getLast?_eq_some_getLast some_left)]

theorem trim_trim (t : Text) : trim (trim t) = trim t := by
  refine trim_eq_self (fun c head => ?_) (fun c last => ?_)
  · obtain ⟨rest, same⟩ := List.head?_eq_some_iff.mp head
    exact trim_head same
  · obtain ⟨front, same⟩ := List.getLast?_eq_some_iff.mp last
    exact trim_last same

/-- Trimmed texts hold what stands between them. -/
theorem trim_append {a b : Text} (between : Text) (first : trim a = a) (some_first : a ≠ [])
    (last : trim b = b) (some_last : b ≠ []) : trim (a ++ (between ++ b)) = a ++ (between ++ b) := by
  refine trim_eq_self (fun c head => ?_) (fun c tail => ?_)
  · obtain ⟨d, a, rfl⟩ := List.exists_cons_of_ne_nil some_first
    cases head
    exact trim_head first
  · obtain ⟨b, d, rfl⟩ := (List.eq_nil_or_concat b).resolve_left some_last
    rw [List.concat_eq_append] at last tail
    rw [← List.append_assoc, ← List.append_assoc, List.getLast?_concat] at tail
    cases tail
    exact trim_last last

theorem trimEnd_parts (t : Text) :
    ∃ behind, t = trimEnd t ++ behind ∧ ∀ c ∈ behind, isBlank c = true := by
  refine ⟨(t.reverse.takeWhile isBlank).reverse, ?_, fun c member => ?_⟩
  · rw [trimEnd, ← List.reverse_append, List.takeWhile_append_dropWhile, List.reverse_reverse]
  · exact List.mem_takeWhile_imp (List.mem_reverse.mp member)

/-- Blank characters around a trimmed text come off. -/
theorem trim_of_parts {before t behind : Text} (trimmed : trim t = t)
    (blank : ∀ c ∈ before, isBlank c = true) (blank' : ∀ c ∈ behind, isBlank c = true) :
    trim (before ++ (t ++ behind)) = t := by
  have start : trimStart (before ++ (t ++ behind)) = trimStart (t ++ behind) :=
    List.dropWhile_append_of_pos blank
  have ends {u : Text} : trimEnd (u ++ behind) = trimEnd u := by
    have all : ∀ c ∈ behind.reverse, isBlank c = true := fun c member =>
      blank' c (List.mem_reverse.mp member)
    simp only [trimEnd, List.reverse_append]
    rw [List.dropWhile_append_of_pos all]
  rw [trim, start]
  cases t with
  | nil =>
    rw [List.nil_append, trimStart, List.dropWhile_eq_nil_iff.mpr blank']
    rfl
  | cons c rest =>
    have visible := trim_head trimmed
    have kept : trimStart (c :: rest ++ behind) = c :: rest ++ behind := by
      simp [trimStart, visible]
    have same : trimStart (c :: rest) = c :: rest := by simp [trimStart, visible]
    rw [kept, ends]
    rwa [trim, same] at trimmed

/-- Blank characters around a text come off with its own. -/
theorem trim_padded {before t behind : Text} (blank : ∀ c ∈ before, isBlank c = true)
    (blank' : ∀ c ∈ behind, isBlank c = true) : trim (before ++ (t ++ behind)) = trim t := by
  obtain ⟨first, last, whole, blank_first, blank_last⟩ := trim_parts t
  have parts : before ++ (t ++ behind) = before ++ first ++ (trim t ++ (last ++ behind)) := by
    conv => lhs; rw [whole]
    simp
  rw [parts]
  refine trim_of_parts (trim_trim t) (fun c member => ?_) (fun c member => ?_)
  · exact (List.mem_append.mp member).elim (blank c) (blank_first c)
  · exact (List.mem_append.mp member).elim (blank_last c) (blank' c)

theorem trim_before {before : Text} (blank : ∀ c ∈ before, isBlank c = true) (t : Text) :
    trim (before ++ t) = trim t := by
  have padded : trim (before ++ (t ++ [])) = trim t := trim_padded blank (by simp)
  rwa [List.append_nil] at padded

theorem trim_behind {behind : Text} (blank : ∀ c ∈ behind, isBlank c = true) (t : Text) :
    trim (t ++ behind) = trim t :=
  have padded : trim ([] ++ (t ++ behind)) = trim t := trim_padded (by simp) blank
  padded

theorem trim_trimEnd (t : Text) : trim (trimEnd t) = trim t := by
  obtain ⟨behind, same, blank⟩ := trimEnd_parts t
  conv => rhs; rw [same, trim_behind blank]

/-- Trimming stops at a visible character. -/
theorem trim_between {a b : Text} {c : Char} (first : ∀ d, (a ++ [c]).head? = some d → isBlank d = false)
    (visible : isBlank c = false) : trim (a ++ c :: b) = a ++ c :: trimEnd b := by
  obtain ⟨behind, same, blank⟩ := trimEnd_parts b
  have parts : a ++ c :: b = [] ++ (a ++ c :: trimEnd b ++ behind) := by
    conv => lhs; rw [same]
    simp
  rw [parts]
  refine trim_of_parts (trim_eq_self (fun d head => first d ?_) fun d last => ?_) (by simp) blank
  · cases a with
    | nil => simpa using head
    | cons e a => simpa using head
  · cases rest : trimEnd b with
    | nil =>
      rw [rest] at last
      simp at last
      exact last ▸ visible
    | cons e rest' =>
      have tail : (trimEnd b).getLast? = some d := by
        rw [rest] at last ⊢
        simpa [List.getLast?_append, List.getLast?_cons] using last
      obtain ⟨front, whole⟩ := List.getLast?_eq_some_iff.mp tail
      exact trimEnd_last whole

theorem ink_trim (t : Text) : ink (trim t) = ink t := by
  obtain ⟨before, behind, same, blank, blank'⟩ := trim_parts t
  conv => rhs; rw [same]
  simp [ink_blank blank, ink_blank blank']

theorem mem_trim {c : Char} (visible : isBlank c = false) (t : Text) : c ∈ trim t ↔ c ∈ t := by
  rw [← mem_ink visible, ink_trim, mem_ink visible]

theorem blank_of_trim {t : Text} (nothing : trim t = []) : ∀ c ∈ t, isBlank c = true := by
  intro c member
  by_contra visible
  have inside := (mem_trim (by simpa using visible) t).mpr member
  simp [nothing] at inside

/-- Between texts that are not blank nothing is trimmed. -/
theorem trim_middle {a b : Text} (left : trim a ≠ []) (right : trim b ≠ []) : ∃ r r', ∀ middle,
    trim (a ++ (middle ++ b)) = trim a ++ (r ++ middle ++ r' ++ trim b) := by
  obtain ⟨before, r, parts, blank, -⟩ := trim_parts a
  obtain ⟨r', behind, parts', -, blank'⟩ := trim_parts b
  refine ⟨r, r', fun middle => ?_⟩
  have whole : a ++ (middle ++ b) = before ++ (trim a ++ (r ++ middle ++ r' ++ trim b) ++ behind) := by
    conv => lhs; rw [parts, parts']
    simp
  rw [whole]
  exact trim_of_parts (trim_append _ (trim_trim a) left (trim_trim b) right) blank blank'

/-- Neutral characters keep the closers, and they open or close no quote. -/
theorem track_neutral {t : Text} (neutral : ∀ c ∈ t, Neutral c) {s : Scan} (sound : s.Sound)
    (closers : List Char) :
    ∃ s', track (s, closers) t = some (s', closers) ∧ s'.outside = s.outside := by
  induction t generalizing s with
  | nil => exact ⟨s, rfl, rfl⟩
  | cons c rest ih =>
    obtain ⟨s', reached, outside⟩ :=
      ih (fun d member => neutral d (by simp [member])) (Scan.sound_settle sound)
    refine ⟨s', ?_, outside.trans (Scan.outside_settle s)⟩
    rw [track_cons, turn_neutral sound (neutral c (by simp)), Option.bind_some, reached]

theorem track_sound {p q : Place} {t : Text} (sound : p.1.Sound) (reached : track p t = some q) :
    q.1.Sound := by
  induction t generalizing p with
  | nil =>
    cases reached
    exact sound
  | cons c rest ih =>
    rw [track_cons] at reached
    obtain ⟨r, step, after⟩ := Option.bind_eq_some_iff.mp reached
    exact ih (turn_sound sound step) after

theorem balanced_of_concat {t : Text} {c : Char} (neutral : Neutral c)
    (holds : balanced (t ++ [c]) = true) : balanced t = true := by
  obtain ⟨s, reached, outside⟩ := balanced_iff.mp holds
  rw [track_append] at reached
  obtain ⟨⟨s', closers⟩, before, last⟩ := Option.bind_eq_some_iff.mp reached
  have sound := track_sound (p := (.plain, [])) (by trivial) before
  rw [track_cons, turn_neutral sound neutral] at last
  cases last
  exact balanced_iff.mpr ⟨s', before, by rwa [Scan.outside_settle] at outside⟩

theorem track_blank {t : Text} (blank : ∀ c ∈ t, isBlank c = true) (closers : List Char) :
    track (.plain, closers) t = some (.plain, closers) := by
  induction t with
  | nil => rfl
  | cons c rest ih =>
    rw [track_cons, turn_neutral (by trivial) (blank_neutral (blank c (by simp)))]
    exact ih fun d member => blank d (by simp [member])

theorem balanced_trim {t : Text} (holds : balanced t = true) : balanced (trim t) = true := by
  obtain ⟨before, behind, same, blank, blank'⟩ := trim_parts t
  obtain ⟨s, reached, outside⟩ := balanced_iff.mp holds
  rw [same, track_append_of (track_blank blank []), track_append] at reached
  obtain ⟨⟨s', closers⟩, middle, last⟩ := Option.bind_eq_some_iff.mp reached
  obtain ⟨s'', kept, outside'⟩ := track_neutral (fun c member => blank_neutral (blank' c member))
    (track_sound (p := (.plain, [])) (by trivial) middle) closers
  rw [kept] at last
  cases last
  exact balanced_iff.mpr ⟨s', middle, outside' ▸ outside⟩

theorem count_trim (t : Text) : (trim t).count '[' = t.count '[' := by
  obtain ⟨before, behind, same, blank, blank'⟩ := trim_parts t
  have absent {u : Text} (blank : ∀ c ∈ u, isBlank c = true) : u.count '[' = 0 :=
    List.count_eq_zero.mpr fun member => absurd (blank _ member) (by decide)
  conv => rhs; rw [same]
  simp [absent blank, absent blank']

theorem trim_eq_nil {t : Text} : trim t = [] ↔ ink t = [] := by
  rw [← ink_trim]
  constructor
  · intro empty
    rw [empty]
    rfl
  · intro empty
    cases same : trim t with
    | nil => rfl
    | cons c rest => simp [same, ink, trim_head same] at empty

/-- The text ends in a visible character. -/
def EndsVisibly (t : Text) : Prop := ∀ c, t.getLast? = some c → isBlank c = false

theorem EndsVisibly.tail {c : Char} {t : Text} (ends : EndsVisibly (c :: t)) : EndsVisibly t :=
  fun d last => ends d (by simp [List.getLast?_cons, last])

theorem EndsVisibly.ink_ne_nil {t : Text} (ends : EndsVisibly t) (some_left : t ≠ []) :
    ink t ≠ [] := by
  have final := List.getLast?_eq_some_getLast some_left
  intro nothing
  have kept : t.getLast some_left ∈ ink t := by
    simp [ink, List.mem_filter, ends _ final]
  simp [nothing] at kept

theorem endsVisibly_of_trimmed {t : Text} (trimmed : trim t = t) : EndsVisibly t := by
  intro c last
  obtain ⟨front, whole⟩ := List.getLast?_eq_some_iff.mp last
  exact trim_last (trimmed.trans whole)

/-- The text is not empty, and neither end of it is blank. -/
structure Trimmed (t : Text) : Prop where
  some_left : t ≠ []
  first : ∀ c, t.head? = some c → isBlank c = false
  last : EndsVisibly t

theorem Trimmed.of_trim {t : Text} (some_left : trim t ≠ []) : Trimmed (trim t) := by
  refine ⟨some_left, fun c head => ?_, endsVisibly_of_trimmed (trim_trim t)⟩
  obtain ⟨rest, same⟩ := List.head?_eq_some_iff.mp head
  exact trim_head same

/-- Between texts that are visible where the whole begins and ends, a trimmed text stays trimmed. -/
theorem Trimmed.around {a t b : Text} (trimmed : Trimmed t)
    (first : ∀ c, a.head? = some c → isBlank c = false) (last : EndsVisibly b) :
    Trimmed (a ++ (t ++ b)) := by
  refine ⟨by simp [trimmed.some_left], fun c head => ?_, fun c tail => ?_⟩
  · cases a with
    | nil =>
      rw [List.nil_append, List.head?_append_of_ne_nil _ trimmed.some_left] at head
      exact trimmed.first c head
    | cons d a => exact first c head
  · rw [List.getLast?_append_of_ne_nil _ (by simp [trimmed.some_left])] at tail
    rcases List.eq_nil_or_concat b with rfl | ⟨front, d, rfl⟩
    · rw [List.append_nil] at tail
      exact trimmed.last c tail
    · rw [List.getLast?_append_of_ne_nil _ (by simp)] at tail
      exact last c tail

end AtomicCss.Text
