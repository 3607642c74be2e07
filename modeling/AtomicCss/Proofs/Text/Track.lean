import AtomicCss.Text.Bracket

/-! Following the closers of a text from left to right. What a text does to the
state of the reader and to the closers that are due is one partial function,
and it is the composition of what its parts do; a balanced text is one that
leaves no closer due. Characters that are no brackets, quotes or backslashes
change nothing that a neighbour of their kind does not change as well. -/
namespace AtomicCss

namespace Scan

@[simp] theorem after_nil (s : Scan) : s.after [] = s := rfl

@[simp] theorem after_cons (s : Scan) (c : Char) (t : Text) :
    s.after (c :: t) = (s.next c).after t := rfl

@[simp] theorem after_append (s : Scan) (a b : Text) : s.after (a ++ b) = (s.after a).after b := by
  simp [after]

/-- A quote is only ever opened by a quote character. -/
def Sound : Scan → Prop
  | .plain | .escaped => True
  | .quoted q | .quotedEscaped q => isQuote q = true

theorem sound_next {s : Scan} (sound : s.Sound) (c : Char) : (s.next c).Sound := by
  fun_cases next s c with
  | case1 => trivial
  | case2 => exact sound
  | case3 => trivial
  | case4 _ _ quote => exact quote
  | case5 => trivial
  | case6 => exact sound
  | case7 => trivial
  | case8 => exact sound

theorem plain_of_live {s : Scan} {c : Char} (live : s.live c = true) : s = .plain := by
  simp only [Scan.live, Bool.and_eq_true, decide_eq_true_eq] at live
  exact live.1.1

theorem next_of_live {s : Scan} {c : Char} (live : s.live c = true) : s.next c = .plain := by
  obtain rfl := plain_of_live live
  simp only [Scan.live, Bool.and_eq_true, decide_eq_true_eq, Bool.not_eq_true'] at live
  simp [Scan.next, live.1.2, live.2]

/-- The state after any character that means nothing to the reader. -/
def settle : Scan → Scan
  | .plain | .escaped => .plain
  | .quoted q | .quotedEscaped q => .quoted q

theorem sound_settle {s : Scan} (sound : s.Sound) : s.settle.Sound := by
  cases s <;> exact sound

theorem settle_settle (s : Scan) : s.settle.settle = s.settle := by cases s <;> rfl

/-- Behind a whole character or escape: no quote, or a quote that is open. -/
def Settled (s : Scan) : Prop := s.Sound ∧ s.settle = s

theorem settled_settle {s : Scan} (sound : s.Sound) : s.settle.Settled :=
  ⟨sound_settle sound, settle_settle s⟩

theorem settled_plain : Scan.plain.Settled := ⟨trivial, rfl⟩

theorem settled_cases {s : Scan} (settled : s.Settled) :
    s = .plain ∨ ∃ q, isQuote q = true ∧ s = .quoted q := by
  obtain ⟨sound, still⟩ := settled
  cases s with
  | plain => exact .inl rfl
  | quoted q => exact .inr ⟨q, sound, rfl⟩
  | escaped => cases still
  | quotedEscaped q => cases still

theorem settled_next {s : Scan} (settled : s.Settled) {c : Char} (unescaped : c ≠ '\\') :
    (s.next c).Settled := by
  refine ⟨sound_next settled.1 c, ?_⟩
  obtain rfl | ⟨q, -, rfl⟩ := settled_cases settled
  · simp only [next, unescaped, if_false]
    split <;> rfl
  · simp only [next, unescaped, if_false]
    split <;> rfl

theorem outside_settle (s : Scan) : s.settle.outside = s.outside := by cases s <;> rfl

end Scan

namespace Text

/-- Each character of a text that is written out has a property that can be checked. -/
theorem forall_of_all {p : Char → Prop} [DecidablePred p] {t : Text}
    (all : t.all (fun c => decide (p c)) = true) : ∀ c ∈ t, p c :=
  fun c member => of_decide_eq_true (List.all_eq_true.mp all c member)

/-- A character that is neither a bracket nor a quote nor a backslash. -/
def Neutral (c : Char) : Prop := c ≠ '\\' ∧ Scan.isQuote c = false ∧ isBracket c = false

instance (c : Char) : Decidable (Neutral c) := inferInstanceAs (Decidable (_ ∧ _))

theorem closer_eq_some {c k : Char} :
    closer? c = some k ↔ c = '(' ∧ k = ')' ∨ c = '[' ∧ k = ']' ∨ c = '\x7b' ∧ k = '\x7d' := by
  constructor
  · intro opens
    unfold closer? at opens
    split at opens
    · exact .inl ⟨rfl, (Option.some.inj opens).symm⟩
    · exact .inr (.inl ⟨rfl, (Option.some.inj opens).symm⟩)
    · exact .inr (.inr ⟨rfl, (Option.some.inj opens).symm⟩)
    · cases opens
  · rintro (⟨rfl, rfl⟩ | ⟨rfl, rfl⟩ | ⟨rfl, rfl⟩) <;> rfl

/-- The characters that mean something to the reader of brackets. -/
def meaningful : Text := ['\\', '"', '\'', '(', '[', '\x7b', ')', ']', '\x7d']

theorem neutral_iff {c : Char} : Neutral c ↔ c ∉ meaningful := by
  constructor
  · rintro ⟨backslash, unquoted, unbracketed⟩ listed
    have all : ∀ d ∈ meaningful, d = '\\' ∨ Scan.isQuote d = true ∨ isBracket d = true :=
      forall_of_all rfl
    rcases all c listed with same | quote | bracket
    · exact backslash same
    · simp [quote] at unquoted
    · simp [bracket] at unbracketed
  · intro other
    simp only [meaningful, List.mem_cons, List.not_mem_nil, or_false, not_or] at other
    have closes : closer? c = none := by
      refine Option.eq_none_iff_forall_ne_some.mpr fun k opens => ?_
      rcases closer_eq_some.mp opens with ⟨rfl, -⟩ | ⟨rfl, -⟩ | ⟨rfl, -⟩ <;> simp at other
    simp [Neutral, Scan.isQuote, isBracket, isCloser, closes, other]

theorem Neutral.ne {c d : Char} (neutral : Neutral c) (listed : d ∈ meaningful) : c ≠ d := by
  rintro rfl
  exact neutral_iff.mp neutral listed

/-- A class of characters that leaves out the meaningful ones. -/
theorem neutral_of_class {p : Char → Bool} (outside : meaningful.any p = false) {c : Char}
    (inside : p c = true) : Neutral c := by
  refine neutral_iff.mpr fun listed => ?_
  simp [List.any_eq_true.mpr ⟨c, listed, inside⟩] at outside

/-- The closers that are due after a live character, if it may stand there. -/
def close? (closers : List Char) (c : Char) : Option (List Char) :=
  match closer? c with
  | some k => some (k :: closers)
  | none =>
    if isCloser c then
      match closers with
      | [] => none
      | k :: closers => if k = c then some closers else none
    else some closers

/-- What the reader keeps in mind between two characters. -/
abbrev Place := Scan × List Char

def turn (p : Place) (c : Char) : Option Place :=
  if p.1.live c then (close? p.2 c).map fun closers => (p.1.next c, closers)
  else some (p.1.next c, p.2)

/-- The place that a text leads to, unless it closes a bracket that is not due. -/
def track (p : Place) (t : Text) : Option Place := t.foldlM turn p

@[simp] theorem track_nil (p : Place) : track p [] = some p := rfl

theorem track_cons (p : Place) (c : Char) (t : Text) :
    track p (c :: t) = (turn p c).bind fun q => track q t := rfl

theorem track_append (p : Place) (a b : Text) :
    track p (a ++ b) = (track p a).bind fun q => track q b := by
  simp [track, List.foldlM_append, bind]

theorem track_append_of {p q : Place} {a : Text} (first : track p a = some q) (b : Text) :
    track p (a ++ b) = track q b := by
  rw [track_append, first, Option.bind_some]

theorem balancedFrom_eq (s : Scan) (closers : List Char) (t : Text) :
    balancedFrom s closers t =
      match track (s, closers) t with
      | some (s, closers) => closers.isEmpty && s.outside
      | none => false := by
  induction t generalizing s closers with
  | nil => rfl
  | cons c rest ih =>
    rw [track_cons]
    unfold balancedFrom turn close?
    by_cases live : s.live c
    · simp only [live, if_true]
      cases opened : closer? c with
      | some k => simpa using ih (s.next c) (k :: closers)
      | none =>
        by_cases closing : isCloser c
        · cases closers with
          | nil => simp [closing]
          | cons k closers =>
            by_cases same : k = c
            · simpa [closing, same] using ih (s.next c) closers
            · simp [closing, same]
        · simpa [closing] using ih (s.next c) closers
    · simpa [live] using ih (s.next c) closers

/-- A balanced text leaves no closer due and no quote open; it may end in the
middle of an escape. -/
theorem balanced_iff {t : Text} :
    balanced t = true ↔ ∃ s : Scan, track (.plain, []) t = some (s, []) ∧ s.outside = true := by
  unfold balanced
  rw [balancedFrom_eq]
  constructor
  · intro holds
    cases reached : track (.plain, []) t with
    | none => simp [reached] at holds
    | some p =>
      obtain ⟨s, closers⟩ := p
      simp only [reached, Bool.and_eq_true, List.isEmpty_iff] at holds
      obtain ⟨rfl, outside⟩ := holds
      exact ⟨s, rfl, outside⟩
  · rintro ⟨s, reached, outside⟩
    simp [reached, outside]

/-- Closers that are due from before stay due below everything else. -/
theorem turn_below {s s' : Scan} {closers closers' : List Char} {c : Char}
    (step : turn (s, closers) c = some (s', closers')) (below : List Char) :
    turn (s, closers ++ below) c = some (s', closers' ++ below) := by
  unfold turn close? at step ⊢
  by_cases live : s.live c
  · simp only [live, if_true] at step ⊢
    cases opened : closer? c with
    | some k =>
      simp only [opened, Option.map_some, Option.some.injEq, Prod.mk.injEq] at step ⊢
      exact ⟨step.1, by rw [← step.2]; rfl⟩
    | none =>
      by_cases closing : isCloser c
      · cases closers with
        | nil => simp [opened, closing] at step
        | cons k closers =>
          by_cases same : k = c <;> simp_all
      · simp_all
  · simp_all

theorem track_below {s s' : Scan} {closers closers' : List Char} {t : Text}
    (reached : track (s, closers) t = some (s', closers')) (below : List Char) :
    track (s, closers ++ below) t = some (s', closers' ++ below) := by
  induction t generalizing s closers with
  | nil =>
    cases reached
    rfl
  | cons c rest ih =>
    rw [track_cons] at reached ⊢
    obtain ⟨⟨s₁, closers₁⟩, step, after⟩ := Option.bind_eq_some_iff.mp reached
    rw [turn_below step below, Option.bind_some]
    exact ih after

theorem next_neutral {s : Scan} (sound : s.Sound) {c : Char} (neutral : Neutral c) :
    s.next c = s.settle := by
  obtain ⟨plain, unquoted, -⟩ := neutral
  cases s with
  | plain => simp [Scan.next, Scan.settle, plain, unquoted]
  | escaped => rfl
  | quoted q =>
    have other : c ≠ q := fun same => by
      subst same
      simp [Scan.Sound, unquoted] at sound
    simp [Scan.next, Scan.settle, plain, other]
  | quotedEscaped q => rfl

theorem turn_neutral {p : Place} (sound : p.1.Sound) {c : Char} (neutral : Neutral c) :
    turn p c = some (p.1.settle, p.2) := by
  have bracket := neutral.2.2
  simp only [isBracket, Bool.or_eq_false_iff, Option.isSome_eq_false_iff, Option.isNone_iff_eq_none]
    at bracket
  simp [turn, close?, bracket, next_neutral sound neutral]

theorem turn_escaped (closers : List Char) (c : Char) :
    turn (.escaped, closers) c = some (.plain, closers) := by
  simp [turn, Scan.live, Scan.next]

theorem turn_quotedEscaped (q : Char) (closers : List Char) (c : Char) :
    turn (.quotedEscaped q, closers) c = some (.quoted q, closers) := by
  simp [turn, Scan.live, Scan.next]

theorem turn_sound {p q : Place} {c : Char} (sound : p.1.Sound) (step : turn p c = some q) :
    q.1.Sound := by
  unfold turn at step
  split at step
  · obtain ⟨closers, -, rfl⟩ := Option.map_eq_some_iff.mp step
    exact Scan.sound_next sound c
  · cases step
    exact Scan.sound_next sound c

end Text
end AtomicCss
