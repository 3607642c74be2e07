import AtomicCss.Proofs.Arbitrary.Rereading
import AtomicCss.Proofs.Text.Name

/-! Type hints in front of a value. The reader goes over a hint without changing
it, and what it has seen there does not change how it reads the value; writing
a value that has no hint never makes one. -/
namespace AtomicCss.Arbitrary
open Text

/-- A lower-case letter, then letters or dashes. -/
def IsHint (t : Text) : Prop :=
  ∃ c rest, t = c :: rest ∧ c.isLower = true ∧ ∀ d ∈ t, d.isLower = true ∨ d = '-'

theorem splitHint_some {t rest hint : Text} :
    splitHint t = (some hint, rest) ↔ t = hint ++ ':' :: rest ∧ IsHint hint := by
  constructor
  · intro found
    unfold splitHint at found
    dsimp only at found
    split at found
    · rename_i c behind rest' run after
      split at found
      · cases found
      · rename_i letter
        cases found
        have whole := List.takeWhile_append_dropWhile (p := fun c => c.isLower || c == '-') (l := t)
        have shape (d : Char) (member : d ∈ c :: behind) : d.isLower = true ∨ d = '-' := by
          rw [← run] at member
          simpa using List.mem_takeWhile_imp member
        rw [run, after] at whole
        exact ⟨whole.symm, c, behind, rfl, by simpa [letter] using shape c (by simp), shape⟩
    · cases found
  · rintro ⟨rfl, c, behind, rfl, lower, shape⟩
    have all : ∀ d ∈ c :: behind, (d.isLower || d == '-') = true := by simpa using shape
    have run : (c :: behind ++ ':' :: rest).takeWhile (fun c => c.isLower || c == '-') =
        c :: behind := by
      rw [List.takeWhile_append_of_pos all]
      simp [show Char.isLower ':' = false from rfl]
    have after : (c :: behind ++ ':' :: rest).dropWhile (fun c => c.isLower || c == '-') =
        ':' :: rest := by
      rw [List.dropWhile_append_of_pos all]
      simp [show Char.isLower ':' = false from rfl]
    have letter : c ≠ '-' := by
      rintro rfl
      cases lower
    simp only [splitHint, run, after, letter, if_false]

theorem splitHint_none {t rest : Text} (found : splitHint t = (none, rest)) : rest = t := by
  unfold splitHint at found
  dsimp only at found
  split at found
  · split at found
    · cases found
      rfl
    · cases found
  · cases found
    rfl

theorem splitHint_of_none {t : Text} (hintless : (splitHint t).1 = none) : splitHint t = (none, t) := by
  cases split : splitHint t with
  | mk hint rest =>
    obtain rfl : hint = none := by rw [split] at hintless; exact hintless
    rw [splitHint_none split]

/-- A text without a hint is not a hint and a colon. -/
theorem hintless_iff {t : Text} :
    (splitHint t).1 = none ↔ ∀ hint rest, IsHint hint → t ≠ hint ++ ':' :: rest := by
  constructor
  · rintro none_there hint rest shape rfl
    rw [splitHint_some.mpr ⟨rfl, shape⟩] at none_there
    cases none_there
  · intro other
    cases found : splitHint t with
    | mk hint rest =>
      cases hint with
      | none => rfl
      | some hint =>
        obtain ⟨whole, shape⟩ := splitHint_some.mp found
        exact absurd whole (other hint rest shape)

/-- The characters of a hint and the colon behind it. -/
def Hinting (c : Char) : Prop := c.isLower = true ∨ c = '-' ∨ c = ':'

instance (c : Char) : Decidable (Hinting c) := inferInstanceAs (Decidable (_ ∨ _))

theorem hinting_of_part {c : Char} (part : c.isLower = true ∨ c = '-') : Hinting c := part.imp_right .inl

theorem hinting_ne {c d : Char} (hinting : Hinting c) (other : ¬ Hinting d) : c ≠ d := by
  rintro rfl
  exact other hinting

/-- A hint changes no state of a reader. -/
theorem hinting_apart {c : Char} (hinting : Hinting c) : c ≠ '\'' ∧ c ≠ '"' ∧ c ≠ '(' ∧ c ≠ ')' :=
  ⟨hinting_ne hinting (by decide), hinting_ne hinting (by decide), hinting_ne hinting (by decide),
    hinting_ne hinting (by decide)⟩

theorem toLower_of_hinting {c : Char} (hinting : Hinting c) : c.toLower = c := by
  rcases hinting with lower | rfl | rfl
  · refine toLower_of_not_upper ?_
    rintro ⟨-, below⟩
    have first : 'a'.val.toNat ≤ c.val.toNat := UInt32.le_iff_toNat_le.mp (isLower_iff.mp lower).1
    have last : c.val.toNat ≤ 'Z'.val.toNat := UInt32.le_iff_toNat_le.mp below
    exact absurd (Nat.le_trans first last) (by decide)
  · rfl
  · rfl

/-- No `url(` begins in a hint or at its colon. -/
theorem opensUrl_hint {c : Char} {h t : Text} (shape : ∀ d ∈ c :: h, d.isLower = true ∨ d = '-') :
    Decoding.opensUrl (c :: (h ++ ':' :: t)) = false := by
  have hinting (d : Char) (member : d ∈ h) : d.toLower = d ∧ d ≠ '(' := by
    have known := hinting_of_part (shape d (by simp [member]))
    exact ⟨toLower_of_hinting known, hinting_ne known (by decide)⟩
  rcases h with _ | ⟨x, _ | ⟨y, _ | ⟨z, h⟩⟩⟩
  · simp [Decoding.opensUrl, lower]
  · simp [Decoding.opensUrl, lower]
  · simp [Decoding.opensUrl, lower]
  · have last := hinting z (by simp)
    simp [Decoding.opensUrl, lower, last]

theorem next_hinting {s : Decoding} (outside : s.quote = none) {c : Char} {rest : Text}
    (hinting : Hinting c) (other : Decoding.opensUrl (c :: rest) = false) : s.next c rest = s := by
  simp [Decoding.next, outside, hinting_apart hinting, other]

theorem unescape_hint {s : Decoding} (outside : s.quote = none) {h : Text}
    (shape : ∀ d ∈ h, d.isLower = true ∨ d = '-') (t : Text) :
    unescape s (h ++ ':' :: t) = h ++ ':' :: unescape s t := by
  have plain {c : Char} (hinting : Hinting c) : c ≠ '\\' ∧ c ≠ '_' :=
    ⟨hinting_ne hinting (by decide), hinting_ne hinting (by decide)⟩
  induction h with
  | nil =>
    have known : Hinting ':' := .inr (.inr rfl)
    have other : Decoding.opensUrl (':' :: t) = false := by simp [Decoding.opensUrl, lower]
    rw [List.nil_append, unescape_plain s (plain known).1, next_hinting outside known other]
    simp
  | cons c h ih =>
    have known := hinting_of_part (shape c (by simp))
    rw [List.cons_append, unescape_plain s (plain known).1,
      next_hinting outside known (opensUrl_hint shape),
      ih fun d member => shape d (by simp [member])]
    simp [(plain known).2]

theorem emit_outside {s : MathState} (outside : s.parens = []) (c : Char) (rest : Text) :
    s.emit c rest = [c] := by
  simp [MathState.emit, MathState.inMath, outside]

theorem next_outside {s : MathState} (outside : s.parens = []) (unquoted : s.quote = none) {c : Char}
    (hinting : Hinting c) (rest : Text) :
    s.next c rest = { s with written := c :: s.written } := by
  simp [MathState.next, emit_outside outside, unquoted, hinting_apart hinting]

theorem spaceFrom_hint {s : MathState} (outside : s.parens = []) (unquoted : s.quote = none) {h : Text}
    (shape : ∀ d ∈ h, d.isLower = true ∨ d = '-') (t : Text) :
    spaceFrom s (h ++ ':' :: t) =
      h ++ ':' :: spaceFrom { s with written := ':' :: (h.reverse ++ s.written) } t := by
  induction h generalizing s with
  | nil =>
    rw [List.nil_append, spaceFrom, emit_outside outside,
      next_outside outside unquoted (.inr (.inr rfl))]
    rfl
  | cons c h ih =>
    have known := hinting_of_part (shape c (by simp))
    have later := ih (s := { s with written := c :: s.written }) outside unquoted
      fun d member => shape d (by simp [member])
    rw [List.cons_append, spaceFrom, emit_outside outside, next_outside outside unquoted known,
      later]
    simp

/-- A text that no name of a function goes on over. -/
def Boundary (base : Text) : Prop :=
  ∀ c, base.head? = some c → c.isAlphanum = false ∧ c ≠ '-'

/-- Inside of parentheses an operator is judged by what was written since they
were opened. -/
theorem isBinary_append {op : Char} {w : Text} (inside : '(' ∈ w) (base : Text) :
    isBinary op (w ++ base) = isBinary op w := by
  have visible : w.dropWhile isBlank ≠ [] := by
    intro nothing
    have blank := List.dropWhile_eq_nil_iff.mp nothing '(' inside
    cases blank
  have cut : (w ++ base).dropWhile isBlank = w.dropWhile isBlank ++ base := by
    rw [List.dropWhile_append, if_neg (by simpa using visible)]
  have kept : '(' ∈ w.dropWhile isBlank := by
    have whole := List.takeWhile_append_dropWhile (p := isBlank) (l := w)
    rw [← whole] at inside
    rcases List.mem_append.mp inside with blank | kept
    · cases List.mem_takeWhile_imp blank
    · exact kept
  have operand : operandHead (w.dropWhile isBlank ++ base) = operandHead (w.dropWhile isBlank) := by
    unfold operandHead
    rw [List.takeWhile_append, if_neg]
    intro all
    have whole := (List.takeWhile_prefix isOperandChar).eq_of_length all
    have member : '(' ∈ (w.dropWhile isBlank).takeWhile isOperandChar := by rwa [whole]
    cases List.mem_takeWhile_imp member
  unfold isBinary
  dsimp only
  rw [cut, operand]
  cases rest : w.dropWhile isBlank with
  | nil => exact absurd rest visible
  | cons c rest => rfl

namespace MathState

/-- The same state with more text in front. -/
def behind (base : Text) (s : MathState) : MathState := { s with written := s.written ++ base }

/-- Open parentheses stand in the text in front. -/
def Founded (s : MathState) : Prop := s.parens ≠ [] → '(' ∈ s.written

theorem emit_behind {s : MathState} (founded : s.Founded) (base : Text) (c : Char) (rest : Text) :
    (s.behind base).emit c rest = s.emit c rest := by
  unfold emit behind inMath
  dsimp only
  split
  · rename_i operator
    have inside : '(' ∈ s.written := founded fun nothing => by simp [nothing] at operator
    obtain ⟨d, w, same⟩ := List.exists_cons_of_ne_nil (List.ne_nil_of_mem inside)
    have head : (s.written ++ base).head? = s.written.head? := by rw [same]; rfl
    unfold spacedOut
    rw [isBinary_append inside, head]
  · rfl

theorem opensMath_behind {base : Text} (boundary : Boundary base) (s : MathState) :
    (s.behind base).opensMath = s.opensMath := by
  have stop : base.takeWhile (fun c => c.isAlphanum || c == '-') = [] := by
    cases base with
    | nil => rfl
    | cons c base =>
      have edge := boundary c rfl
      simp [edge]
  have name : (s.written ++ base).takeWhile (fun c => c.isAlphanum || c == '-') =
      s.written.takeWhile (fun c => c.isAlphanum || c == '-') := by
    rw [List.takeWhile_append, stop, List.append_nil]
    split
    · rename_i all
      exact ((List.takeWhile_prefix _).eq_of_length all).symm
    · rfl
  simp only [opensMath, behind, name, inMath]

theorem next_behind {s : MathState} (founded : s.Founded) {base : Text} (boundary : Boundary base)
    (c : Char) (rest : Text) : (s.behind base).next c rest = (s.next c rest).behind base := by
  have emitted := emit_behind founded base c rest
  have opens := opensMath_behind boundary s
  unfold next
  rw [emitted, opens]
  unfold behind
  dsimp only
  split
  · simp
  · split
    · simp
    · split
      · simp
      · split <;> simp

theorem founded_next {s : MathState} (founded : s.Founded) (c : Char) (rest : Text) :
    (s.next c rest).Founded := by
  obtain ⟨before, after, emitted, -⟩ := emit_eq s c rest
  have more {t : Text} (inside : '(' ∈ s.written) : '(' ∈ t ++ s.written := by simp [inside]
  unfold next Founded
  dsimp only
  split
  · exact fun open_ => more (founded open_)
  · split
    · exact fun open_ => more (founded open_)
    · split
      · rename_i opening
        intro _
        rw [emitted]
        simp [opening]
      · split
        · exact fun open_ => more (founded fun nothing => open_ (by simp [nothing]))
        · exact fun open_ => more (founded open_)

end MathState

/-- What stands in front of a place outside of parentheses does not change how
the text behind it is spaced. -/
theorem spaceFrom_behind {s : MathState} (founded : s.Founded) {base : Text}
    (boundary : Boundary base) (t : Text) : spaceFrom (s.behind base) t = spaceFrom s t := by
  induction t generalizing s with
  | nil => rfl
  | cons c rest ih =>
    rw [spaceFrom, spaceFrom, MathState.emit_behind founded, MathState.next_behind founded boundary,
      ih (MathState.founded_next founded c rest)]

theorem boundary_colon (base : Text) : Boundary (':' :: base) := by
  intro c head
  cases head
  exact ⟨rfl, by decide⟩

/-- A hint is read over. -/
theorem decode_hint {h : Text} (shape : ∀ d ∈ h, d.isLower = true ∨ d = '-') (t : Text) :
    decode (h ++ ':' :: t) = h ++ ':' :: decode t := by
  have founded : MathState.start.Founded := fun open_ => absurd rfl open_
  rw [decode, unescape_hint rfl shape, spaceOperators, spaceFrom_hint rfl rfl shape]
  exact congrArg (fun t => h ++ ':' :: t)
    (spaceFrom_behind founded (boundary_colon (h.reverse ++ [])) (unescape .start t))

/-- Where a hint is read, it was written. -/
theorem hint_of_spaceFrom {s : MathState} (outside : s.parens = []) (unquoted : s.quote = none)
    {d : Decoding} {h t x : Text} (shape : ∀ c ∈ h, c.isLower = true ∨ c = '-')
    (read : spaceFrom s (respell d t) = h ++ ':' :: x) : ∃ y, t = h ++ ':' :: y := by
  have first {e : Char} {u : Text} (known : Hinting e) {s : MathState} (outside : s.parens = [])
      {d : Decoding} {t : Text} (read : spaceFrom s (respell d t) = e :: u) :
      ∃ y, t = e :: y ∧ spaceFrom (s.next e (respell (d.next e y) y)) (respell (d.next e y) y) = u := by
    have backslash := hinting_ne known (d := '\\') (by decide)
    have low := hinting_ne known (d := '_') (by decide)
    have space := hinting_ne known (d := ' ') (by decide)
    have gap : e ≠ d.gap := by
      unfold Decoding.gap
      split
      · exact space
      · exact low
    have head {o : Char} {r : Text} (read : spaceFrom s (o :: r) = e :: u) :
        o = e ∧ spaceFrom (s.next o r) r = u := by
      rw [spaceFrom, emit_outside outside] at read
      exact List.cons.inj read
    revert read
    fun_cases respell d t with
    | case1 => intro read; cases read
    | case2 => exact fun read => absurd (head read).1.symm backslash
    | case3 => exact fun read => absurd (head read).1.symm backslash
    | case4 => exact fun read => absurd (head read).1.symm low
    | case5 => exact fun read => absurd (head read).1.symm backslash
    | case6 => exact fun read => absurd (head read).1.symm low
    | case7 => exact fun read => absurd (head read).1.symm gap
    | case8 c y =>
      intro read
      obtain ⟨rfl, rest⟩ := head read
      exact ⟨y, rfl, rest⟩
  induction h generalizing s d t with
  | nil =>
    obtain ⟨y, rfl, -⟩ := first (.inr (.inr rfl)) outside read
    exact ⟨y, rfl⟩
  | cons c h ih =>
    have known := hinting_of_part (shape c (by simp))
    obtain ⟨y, rfl, rest⟩ := first known outside read
    rw [next_outside outside unquoted known] at rest
    obtain ⟨z, rfl⟩ := ih (s := { s with written := c :: s.written }) outside unquoted
      (fun e member => shape e (by simp [member])) rest
    exact ⟨z, rfl⟩

end AtomicCss.Arbitrary
