import AtomicCss.Proofs.Arbitrary.Mathematics
import AtomicCss.Proofs.Arbitrary.OperatorSpaces

/-! Mathematics that is written without the spaces around its operators. They come back where the
reader takes an operator for one that joins two operands, and it looks for a number or a
parenthesis in front of a sign: a name is no operand there. -/
namespace AtomicCss.Arbitrary
open Text Value

/-- Inside of mathematics, the operator joins an operand at the end of `x` to the beginning of `y`. -/
structure Joins (x : Text) (op : Char) (y : Text) : Prop where
  inside : InMath x
  left : LeftOperand op x
  right : ∃ c rest, y = c :: rest ∧ c ≠ ')'

namespace MathState

/-- Outside of quotes, behind a text that was written as it is. -/
def past (front : Text) : MathState := ⟨front.reverse, openMath front.reverse, none⟩

variable {front t : Text} {c : Char}

theorem inMath_past : (past front).inMath = true ↔ InMath front := by
  rw [inMath, beq_iff_eq, past, inMath_iff, List.reverse_reverse]

theorem next_past (unquoted : Unquoted (c :: t)) (kept : (past front).emit c t = [c]) :
    (past front).next c t = past (front ++ [c]) := by
  have double : c ≠ '"' := fun same => unquoted.double (same ▸ .head t)
  have single : c ≠ '\'' := fun same => unquoted.single (same ▸ .head t)
  unfold next
  simp only [kept]
  by_cases opens : c = '('
  · simp [past, opens, openMath]
  · by_cases closes : c = ')'
    · simp [past, closes, openMath]
    · simp [past, double, single, opens, closes, openMath]

section

variable (operator : isOperatorChar c = true)

include operator

theorem next_past_spaced (emitted : (past front).emit c t = [' ', c, ' ']) :
    (past front).next c t = past (front ++ [' ', c, ' ']) := by
  have quiet := operator_quiet operator
  rw [next_quiet rfl quiet, emitted]
  simp [past, openMath, quiet]

/-- An operator between visible characters gets its spaces where it joins operands. -/
theorem emit_past (ahead : front.getLast?.any isBlank = false) (visible : t.head?.any isBlank = false) :
    (past front).emit c t = [' ', c, ' '] ∧ Joins front c t ∨
      (past front).emit c t = [c] ∧ ¬ Joins front c t := by
  have known : c = '+' ∨ c = '-' ∨ c = '*' ∨ c = '/' := by
    simpa [isOperatorChar, or_assoc] using operator
  have left := isBinary_iff operator ahead
  by_cases math : (past front).inMath = true
  · have emitted : (past front).emit c t = spacedOut c front.reverse t := if_pos ⟨rfl, known, math⟩
    rcases spacedOut_cases c front.reverse t with ⟨⟨binary, right⟩, spaced⟩ | ⟨unary, alone⟩
    · refine .inl ⟨?_, inMath_past.mp math, left.mp binary, right⟩
      rw [emitted, spaced, List.head?_reverse, lacking, lacking, ahead, visible]
      rfl
    · exact .inr ⟨emitted.trans alone, fun joins => unary ⟨left.mpr joins.left, joins.right⟩⟩
  · exact .inr ⟨if_neg fun inside => math inside.2.2, fun joins => math (inMath_past.mpr joins.inside)⟩

end

/-- An operator that a space behind it does not make binary is not binary at all. -/
theorem emit_bare {m : MathState} {d : Char} (ahead : m.written.head?.any isBlank = false) (other : d ≠ ')')
    (kept : m.emit c (d :: t) = [c]) (u : Text) : m.emit c u = [c] := by
  unfold emit at kept ⊢
  split
  · rename_i math
    have unary : isBinary c m.written = false := by
      rw [if_pos math] at kept
      by_contra binary
      simp [spacedOut, other, ahead, binary] at kept
    cases u <;> simp [spacedOut, unary]
  · rfl

end MathState

theorem head_ink {t : Text} (visible : t.head?.any isBlank = false) : (ink t).head? = t.head? := by
  cases t with
  | nil => rfl
  | cons c t =>
    have visible : isBlank c = false := by simpa using visible
    rw [ink_visible visible]
    rfl

/-- Taking the blank characters behind it away makes no operator binary. -/
theorem emit_ink {front t : Text} {c : Char} (kept : (MathState.past front).emit c t = [c])
    (apart : front.getLast?.any isBlank = true →
      ∃ op, (MathState.past front).last = some op ∧ isOperatorChar op = true) :
    (MathState.past front).emit c (ink t) = [c] := by
  cases visible : t.head?.any isBlank with
  | false => rw [MathState.emit_congr (head_ink visible), kept]
  | true =>
    cases ahead : front.getLast?.any isBlank with
    | true =>
      obtain ⟨op, last, operator⟩ := apart ahead
      exact emit_behind_operator last operator c (ink t)
    | false =>
      cases t with
      | nil => cases visible
      | cons d t =>
        have other : d ≠ ')' := by
          rintro rfl
          cases visible
        exact MathState.emit_bare (by simpa [MathState.past] using ahead) other kept (ink (d :: t))

/-- Every operator with its spaces in the text joins its operands, where `front` stands ahead. -/
def JoinsAll (front t : Text) : Prop :=
  ∀ x op y, t = x ++ ' ' :: op :: ' ' :: y → isOperatorChar op = true → Joins (front ++ x) op y

section

variable {front t : Text}

theorem joinsAll_nil : JoinsAll front [] := by
  intro x op y same
  simp at same

theorem joinsAll_visible {c : Char} (other : c ≠ ' ') :
    JoinsAll front (c :: t) ↔ JoinsAll (front ++ [c]) t := by
  constructor
  · intro joins x op y same operator
    have joined := joins (c :: x) op y (by simp [same]) operator
    simpa using joined
  · intro joins x op y same operator
    cases x with
    | nil => exact absurd (List.cons.inj same).1 other
    | cons d x =>
      obtain ⟨rfl, rfl⟩ := List.cons.inj same
      simpa using joins x op y rfl operator

/-- Operators share no space where there is no other operator behind. -/
theorem joinsAll_operator {op : Char} (operator : isOperatorChar op = true)
    (alone : ∀ op' y, t = op' :: ' ' :: y → isOperatorChar op' = false) :
    JoinsAll front (' ' :: op :: ' ' :: t) ↔ Joins front op t ∧ JoinsAll (front ++ [' ', op, ' ']) t := by
  have other := ne_space (isBlank_operator operator)
  constructor
  · intro joins
    refine ⟨by simpa using joins [] op t rfl operator, fun x op' y same operator' => ?_⟩
    have joined := joins (' ' :: op :: ' ' :: x) op' y (by simp [same]) operator'
    simpa using joined
  · rintro ⟨first, joins⟩ x op' y same operator'
    match x with
    | [] =>
      cases same
      simpa using first
    | [_] => exact absurd (List.cons.inj (List.cons.inj same).2).1 other
    | [_, _] =>
      have next := (List.cons.inj (List.cons.inj (List.cons.inj same).2).2).2
      rw [alone op' y next] at operator'
      cases operator'
    | a :: b :: c :: x =>
      cases same
      simpa using joins x op' y rfl operator'

/-- An operator right behind another one has no operand. -/
theorem not_joinsAll {op op' : Char} (operator : isOperatorChar op = true)
    (operator' : isOperatorChar op' = true) : ¬ JoinsAll front (' ' :: op :: ' ' :: op' :: ' ' :: t) := by
  intro joins
  have left := (joins [' ', op] op' t rfl operator').left
  have visible : (front ++ [' ', op]).getLast?.any isBlank = false := by
    simpa using isBlank_operator operator
  obtain ⟨d, last, -, other⟩ := operand_of_isBinary ((isBinary_iff operator' visible).mpr left)
  obtain rfl : op = d := by simpa [isBlank_operator operator] using last
  rw [operator] at other
  cases other

/-- The space behind two operators in a row does not come back. -/
theorem spaceFrom_ne {m : MathState} {op op' : Char} (operator : isOperatorChar op = true)
    (operator' : isOperatorChar op' = true) :
    spaceFrom m (op :: op' :: ink t) ≠ ' ' :: op :: ' ' :: op' :: ' ' :: t := by
  intro same
  have last : (m.next op (op' :: ink t)).last = some op := MathState.last_next (isBlank_operator operator)
  have alone := emit_behind_operator last operator op' (ink t)
  have last' : ((m.next op (op' :: ink t)).next op' (ink t)).last = some op' :=
    MathState.last_next (isBlank_operator operator')
  have head := head_spaceFrom last' operator' (ink t)
  obtain ⟨before, behind, emitted, first, second, -⟩ := emit_eq m op (op' :: ink t)
  rw [spaceFrom, spaceFrom, alone, emitted] at same
  generalize spaceFrom _ (ink t) = rest at same head
  have gap : rest = ' ' :: t := by
    have other := ne_space (isBlank_operator operator')
    have other' := ne_space (isBlank_operator operator)
    rcases first with rfl | rfl <;> rcases second with rfl | rfl <;> simp_all
  rw [gap] at head
  have kept : ' ' ∈ ink t := List.mem_of_mem_head? head.symm
  have space : isBlank ' ' = true := rfl
  simp [ink, space] at kept

end

theorem settled_past {front t : Text} {op : Char} (operator : isOperatorChar op = true)
    (settled : Settled (.past front) (' ' :: op :: ' ' :: t)) :
    Settled (.past (front ++ [' ', op, ' '])) t := by
  have quiet := MathState.operator_quiet operator
  have same : MathState.past (front ++ [' ', op, ' ']) =
      { MathState.past front with written := ' ' :: op :: ' ' :: front.reverse } := by
    simp [MathState.past, openMath, quiet]
  rw [settled_space rfl, settled_operator rfl operator rfl rfl, settled_space rfl] at settled
  rw [same]
  exact settled

theorem visible_of_other {o : Option Char} (other : o.any isSeparator = false) : o.any isBlank = false := by
  cases o with
  | none => rfl
  | some c => exact isBlank_other other

/-- Reading puts the spaces that were taken away back exactly where each operator joins its
operands. -/
theorem spaceFrom_ink_iff {t : Text} (spaced : OperatorSpaced t) (unquoted : Unquoted t) {front : Text}
    (settled : Settled (.past front) t)
    (between : t.head?.any isBlank = true → front.getLast?.any isSeparator = false)
    (apart : front.getLast?.any isBlank = true →
      ∃ op, (MathState.past front).last = some op ∧ isOperatorChar op = true) :
    spaceFrom (.past front) (ink t) = t ↔ JoinsAll front t := by
  induction spaced generalizing front with
  | nil => exact iff_of_true rfl joinsAll_nil
  | @visible c t visible mark rest ih =>
    have other := ne_space visible
    obtain ⟨kept, later⟩ := settled
    have kept' := emit_ink kept apart
    rw [MathState.next_past unquoted kept] at later
    rw [ink_visible visible, spaceFrom, kept', MathState.next_congr (kept'.trans kept.symm),
      MathState.next_past unquoted kept, List.singleton_append, List.cons_inj_right, joinsAll_visible other]
    refine ih unquoted.tail later (fun blank => ?_) fun blank => ?_
    · cases separates : isSeparator c with
      | false => simpa using separates
      | true =>
        rw [mark separates] at blank
        cases blank
    · simp [visible] at blank
  | @last op t operator ends alone rest ih =>
    have visible := visible_of_other ends
    have head := MathState.emit_congr (m := .past front) (c := op) (head_ink visible)
    rw [ink_space, ink_visible (isBlank_operator operator), ink_space, spaceFrom, MathState.next_congr head, head,
      joinsAll_operator operator alone]
    rcases MathState.emit_past operator (visible_of_other (between rfl)) visible with
      ⟨emitted, joins⟩ | ⟨emitted, apart⟩
    · rw [emitted, MathState.next_past_spaced operator emitted, and_iff_right joins,
        ← ih unquoted.tail.tail.tail (settled_past operator settled) (by simp [visible]) fun _ => ?_]
      · simp
      · have last : (MathState.past (front ++ [' ', op, ' '])).last = some op := by
          have space : isBlank ' ' = true := rfl
          simp [MathState.last, MathState.past, space, isBlank_operator operator]
        exact ⟨op, last, operator⟩
    · rw [emitted]
      refine iff_of_false (fun same => ?_) fun joins => apart joins.1
      rw [(List.cons.inj same).1] at operator
      cases operator
  | more operator operator' rest ih =>
    refine iff_of_false ?_ (not_joinsAll operator operator')
    rw [ink_space, ink_visible (isBlank_operator operator), ink_space,
      ink_visible (isBlank_operator operator'), ink_space]
    exact spaceFrom_ne operator operator'

theorem literal_solid {t : Text} (solid : ∀ c ∈ t, c ≠ '\\' ∧ c ≠ ' ') (s : Decoding) : Literal s t := by
  induction t generalizing s with
  | nil => exact literal_nil s
  | cons c t ih =>
    obtain ⟨plain, space⟩ := solid c (.head t)
    exact (literal_other s plain space t).mpr (ih (fun d member => solid d (.tail c member)) _)

/-- A text without quotes and escapes, in which every blank character is one of the two single
spaces around an operator, comes back from where it is printed exactly if each of its operators
joins its operands. -/
theorem math_spacing_comes_back_iff {r v : Text} (read : decode r = v) (unquoted : Unquoted v)
    (spaces : OperatorSpaces v) :
    decode (print v) = v ↔
      ∀ x op y, v = x ++ ' ' :: op :: ' ' :: y → isOperatorChar op = true → Joins x op y := by
  have settled : Settled (.past []) v := read ▸ settled_spaceFrom .start _
  have literal : Literal .start (ink v) := by
    refine literal_solid (fun c member => ?_) .start
    obtain ⟨inside, visible⟩ := List.mem_filter.mp member
    refine ⟨?_, ?_⟩
    · rintro rfl
      exact unquoted.plain inside
    · rintro rfl
      cases visible
  have printed : decode (print v) = spaceFrom .start (ink v) := by
    rw [print, compactText_spaces unquoted spaces, decode, unescape_encode Decoding.sound_start,
      respell_literal Decoding.sound_start literal, spaceOperators]
  rw [printed]
  exact spaceFrom_ink_iff spaces.spaced unquoted settled (fun _ => rfl) (by simp)

/-- The spaces of a sum in a group, and of a product with a variable. -/
theorem grouped_sum_comes_back :
    let v : Text := "calc((1px + .5em) * var(--a-b))"
    decode "calc((1px+.5em)*var(--a-b))" = v ∧ Unquoted v ∧ OperatorSpaces v ∧ decode (print v) = v ∧
      Joins "calc((1px" '+' ".5em) * var(--a-b))" ∧ Joins "calc((1px + .5em)" '*' "var(--a-b))" := by
  intro v
  have read : decode "calc((1px+.5em)*var(--a-b))" = v := by decide +kernel
  have unquoted : Unquoted v := ⟨by decide, by decide, by decide⟩
  have spaces : OperatorSpaces v := by decide +kernel
  have back : decode (print v) = v := by
    rw [print, Value.compactText_eq_compact]
    decide +kernel
  have joins := (math_spacing_comes_back_iff read unquoted spaces).mp back
  have sum : v = "calc((1px".toList ++ ' ' :: '+' :: ' ' :: ".5em) * var(--a-b))" := rfl
  have product : v = "calc((1px + .5em)".toList ++ ' ' :: '*' :: ' ' :: "var(--a-b))" := rfl
  exact ⟨read, unquoted, spaces, back, joins _ _ _ sum rfl, joins _ _ _ product rfl⟩

/-- A number that is taken from a named one is read back as a part of the name. -/
theorem difference_from_name_lost :
    let v : Text := "calc(pi - 1)"
    decode "calc(pi_-_1)" = v ∧ Unquoted v ∧ ¬ "url(".toList <:+: v ∧ balanced v = true ∧
      OperatorSpaces v ∧ InMath "calc(pi" ∧ print v = "calc(pi-1)" ∧ decode (print v) ≠ v := by
  intro v
  have letter : Matched "p" := .other .nil (by decide)
  have letters : Matched "pi" := .other letter (by decide)
  have inside : InMath ("calc".toList ++ '(' :: "pi") := .call (by decide +kernel) letters
  have url : ¬ "url(".toList <:+: v := by decide +kernel
  have spaces : OperatorSpaces v := by decide +kernel
  have printed : print v = "calc(pi-1)" := by
    rw [print, Value.compactText_eq_compact]
    decide +kernel
  have lost : decode (print v) ≠ v := by
    rw [printed]
    decide +kernel
  exact ⟨by decide +kernel, ⟨by decide, by decide, by decide⟩, url, by decide +kernel, spaces, inside, printed, lost⟩

end AtomicCss.Arbitrary
