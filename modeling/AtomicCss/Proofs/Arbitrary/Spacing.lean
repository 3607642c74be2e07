import AtomicCss.Proofs.Arbitrary.Hint
import AtomicCss.Proofs.Value.Runs

/-! Spaces around operators. Whether an operator gets one depends on the last visible
character in front of it and on the character behind it, and neither changes by the
spaces that were added. So a text that was spaced once is not spaced again. -/
namespace AtomicCss.Arbitrary
open Text Value

/-- No part of a number, a name or a percentage is an operator. -/
theorem operand_other {c : Char} (part : isOperandChar c = true) :
    c ≠ '(' ∧ c ≠ ',' ∧ isOperatorChar c = false := by
  have apart {e : Char} (outside : isOperandChar e = false) : c ≠ e := by
    rintro rfl
    rw [outside] at part
    cases part
  refine ⟨apart rfl, apart rfl, ?_⟩
  simp [isOperatorChar, apart (e := '+') rfl, apart (e := '-') rfl, apart (e := '*') rfl,
    apart (e := '/') rfl]

/-- Only an operand can stand in front of a binary operator. -/
theorem operand_of_isBinary {op : Char} {w : Text} (binary : isBinary op w = true) :
    ∃ d, (w.dropWhile isBlank).head? = some d ∧ d ≠ '(' ∧ isOperatorChar d = false := by
  unfold isBinary at binary
  dsimp only at binary
  split at binary
  · cases binary
  · rename_i d before front
    refine ⟨d, by rw [front]; rfl, ?_⟩
    split at binary
    · rw [Bool.or_eq_true] at binary
      rcases binary with closing | operand
      · obtain rfl : d = ')' := by simpa using closing
        exact ⟨by decide, rfl⟩
      · have part : isOperandChar d = true := by
          cases other : isOperandChar d with
          | true => rfl
          | false => simp [front, operandHead, other] at operand
        exact ⟨(operand_other part).1, (operand_other part).2.2⟩
    · have apart : d ≠ '(' ∧ d ≠ '+' ∧ d ≠ '-' ∧ d ≠ '*' ∧ d ≠ '/' ∧ d ≠ ',' := by
        simpa [and_assoc] using binary
      simp [isOperatorChar, apart]

namespace MathState

variable {m : MathState} {c : Char} {rest : Text}

/-- The last visible character that was written. -/
def last (m : MathState) : Option Char := (m.written.dropWhile isBlank).head?

/-- What is known where an operator is spaced out. -/
structure Spaced (m : MathState) (c : Char) (rest : Text) : Prop where
  unquoted : m.quote = none
  operator : isOperatorChar c = true
  operand : ∃ d, m.last = some d ∧ d ≠ '(' ∧ isOperatorChar d = false
  emitted : ∃ n behind, rest = n :: behind ∧ n ≠ ')' ∧ m.emit c rest =
    (if m.written.head?.any isBlank then [] else [' ']) ++ c :: (if isBlank n then [] else [' '])

theorem spaced_of_emit (more : m.emit c rest ≠ [c]) : m.Spaced c rest := by
  by_cases math : m.quote = none ∧ (c = '+' ∨ c = '-' ∨ c = '*' ∨ c = '/') ∧ m.inMath
  · have emitted : m.emit c rest = spacedOut c m.written rest := if_pos math
    rw [emitted] at more
    have operator : isOperatorChar c = true := by
      rcases math.2.1 with rfl | rfl | rfl | rfl <;> rfl
    cases rest with
    | nil => exact absurd rfl more
    | cons n behind =>
      by_cases alone : n = ')' ∨ isBinary c m.written = false
      · exact absurd (by rcases alone with rfl | unary <;> simp [spacedOut, *]) more
      · obtain ⟨other, binary⟩ := not_or.mp alone
        rw [Bool.not_eq_false] at binary
        exact ⟨math.1, operator, operand_of_isBinary binary, n, behind, rfl, other,
          by rw [emitted]; simp [spacedOut, other, binary]⟩
  · exact absurd (if_neg math) more

theorem written_next (m : MathState) (c : Char) (rest : Text) :
    (m.next c rest).written = (m.emit c rest).reverse ++ m.written := by
  unfold next
  dsimp only
  split
  · rfl
  · split_ifs <;> rfl

/-- A character that is no quote and no parenthesis is only written. -/
theorem next_quiet (unquoted : m.quote = none) (quiet : c ≠ '"' ∧ c ≠ '\'' ∧ c ≠ '(' ∧ c ≠ ')') :
    m.next c rest = { m with written := (m.emit c rest).reverse ++ m.written } := by
  simp [next, unquoted, quiet]

theorem operator_quiet (operator : isOperatorChar c = true) : c ≠ '"' ∧ c ≠ '\'' ∧ c ≠ '(' ∧ c ≠ ')' := by
  refine ⟨?_, ?_, ?_, ?_⟩ <;> rintro rfl <;> cases operator

theorem emit_other (other : isOperatorChar c = false) : m.emit c rest = [c] := by
  by_contra more
  simp [(spaced_of_emit more).operator] at other

theorem emit_congr {rest' : Text} (same : rest.head? = rest'.head?) : m.emit c rest = m.emit c rest' := by
  unfold emit spacedOut
  cases rest <;> cases rest' <;> simp_all

theorem next_congr {rest' : Text} (same : m.emit c rest = m.emit c rest') :
    m.next c rest = m.next c rest' := by
  unfold next
  rw [same]

theorem last_next (visible : isBlank c = false) : (m.next c rest).last = some c := by
  have space : isBlank ' ' = true := rfl
  obtain ⟨before, behind, emitted, -, gap, -⟩ := emit_eq m c rest
  rw [last, written_next, emitted]
  rcases gap with rfl | rfl <;> simp [visible, space]

end MathState

/-- No operator of the text is spaced out. -/
def Settled : MathState → Text → Prop
  | _, [] => True
  | m, c :: rest => m.emit c rest = [c] ∧ Settled (m.next c rest) rest

theorem Settled.spaceFrom_eq {m : MathState} {t : Text} (settled : Settled m t) :
    spaceFrom m t = t := by
  induction t generalizing m with
  | nil => rfl
  | cons c rest ih => rw [spaceFrom, settled.1, ih settled.2, List.singleton_append]

/-- What is needed to keep a spaced operator as it is. -/
theorem emit_kept {m : MathState} {c : Char} {rest : Text}
    (before : m.written.head?.any isBlank = true) (behind : rest.head?.any isBlank = true) :
    m.emit c rest = [c] := by
  by_contra more
  obtain ⟨n, rest', rfl, -, emitted⟩ := (MathState.spaced_of_emit more).emitted
  have blank : isBlank n = true := by simpa using behind
  exact more (by rw [emitted]; simp [before, blank])

/-- Behind an operator no operator is binary. -/
theorem emit_behind_operator {m : MathState} {c : Char} (last : m.last = some c)
    (operator : isOperatorChar c = true) (d : Char) (rest : Text) : m.emit d rest = [d] := by
  by_contra more
  obtain ⟨e, same, -, other⟩ := (MathState.spaced_of_emit more).operand
  obtain rfl := Option.some.inj (last.symm.trans same)
  rw [operator] at other
  cases other

/-- Behind an operator no space is put in front. -/
theorem head_spaceFrom {m : MathState} {c : Char} (last : m.last = some c)
    (operator : isOperatorChar c = true) (t : Text) : (spaceFrom m t).head? = t.head? := by
  cases t with
  | nil => rfl
  | cons d rest =>
    rw [spaceFrom, emit_behind_operator last operator]
    rfl

/-- A quiet character that is written alone. -/
theorem settled_quiet {m : MathState} {c : Char} {rest : Text} (unquoted : m.quote = none)
    (quiet : c ≠ '"' ∧ c ≠ '\'' ∧ c ≠ '(' ∧ c ≠ ')') (alone : m.emit c rest = [c]) :
    Settled m (c :: rest) ↔ Settled { m with written := c :: m.written } rest := by
  rw [Settled, MathState.next_quiet unquoted quiet, alone]
  exact and_iff_right rfl

theorem settled_space {m : MathState} {rest : Text} (unquoted : m.quote = none) :
    Settled m (' ' :: rest) ↔ Settled { m with written := ' ' :: m.written } rest :=
  settled_quiet unquoted (by decide) (MathState.emit_other rfl)

/-- An operator that has its spaces. -/
theorem settled_operator {m : MathState} {c : Char} {rest : Text} (unquoted : m.quote = none)
    (operator : isOperatorChar c = true) (before : m.written.head?.any isBlank = true)
    (behind : rest.head?.any isBlank = true) :
    Settled m (c :: rest) ↔ Settled { m with written := c :: m.written } rest :=
  settled_quiet unquoted (MathState.operator_quiet operator) (emit_kept before behind)

/-- A text that was spaced is not spaced again. -/
theorem settled_spaceFrom (m : MathState) (t : Text) : Settled m (spaceFrom m t) := by
  induction t generalizing m with
  | nil => trivial
  | cons c rest ih =>
    have later := ih (m.next c rest)
    rw [spaceFrom]
    by_cases alone : m.emit c rest = [c]
    · have kept : m.emit c (spaceFrom (m.next c rest) rest) = [c] := by
        cases operator : isOperatorChar c with
        | false => exact MathState.emit_other operator
        | true =>
          have last : (m.next c rest).last = some c := MathState.last_next (isBlank_operator operator)
          rw [MathState.emit_congr (head_spaceFrom last operator rest), alone]
      rw [alone, List.singleton_append]
      refine ⟨kept, ?_⟩
      rwa [← MathState.next_congr (alone.trans kept.symm)]
    · obtain ⟨unquoted, operator, -, n, behind, rfl, -, emitted⟩ := MathState.spaced_of_emit alone
      have last : (m.next c (n :: behind)).last = some c := MathState.last_next (isBlank_operator operator)
      have head := head_spaceFrom last operator (n :: behind)
      rw [MathState.next_quiet unquoted (MathState.operator_quiet operator)] at later head ⊢
      generalize spaceFrom _ (n :: behind) = spaced at later head ⊢
      have space : isBlank ' ' = true := rfl
      rw [emitted] at later ⊢
      cases before : m.written.head?.any isBlank <;> cases blank : isBlank n <;>
        simp_all [settled_space, settled_operator]

end AtomicCss.Arbitrary
