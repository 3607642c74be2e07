import AtomicCss.Proofs.Negative.Literal

/-! Arithmetic between the parentheses of `calc( )`: literals, groups and the four
operators with a blank on either side. Multiplication and division bind before
addition and subtraction, and operators of one kind are read from the left. The text
of an expression determines its value: read from the right, its last operand ends
where a blank or an open parenthesis stands. -/
namespace AtomicCss
open Text

inductive Operator where
  | add
  | sub
  | mul
  | div
  deriving DecidableEq, Repr

namespace Operator

def char : Operator → Char
  | add => '+'
  | sub => '-'
  | mul => '*'
  | div => '/'

theorem char_injective {op op' : Operator} (same : op.char = op'.char) : op = op' := by
  cases op <;> cases op' <;> first | rfl | cases same

/-- The sum of the terms that are finished and the term that is still read, with
one operand more. -/
def extend (op : Operator) (terms : ℚ × ℚ) (x : ℚ) : ℚ × ℚ :=
  match op with
  | add => (terms.1 + terms.2, x)
  | sub => (terms.1 + terms.2, -x)
  | mul => (terms.1, terms.2 * x)
  | div => (terms.1, terms.2 / x)

end Operator

mutual

inductive Operand where
  | literal (l : Literal)
  | group (call : Bool) (e : Expression)

inductive Expression where
  | operand (x : Operand)
  | chain (e : Expression) (op : Operator) (x : Operand)

end

/-- What opens a group: a parenthesis, or `calc(`. -/
def groupOpening (call : Bool) : Text := if call then "calc(" else "("

mutual

def Operand.text : Operand → Text
  | .literal l => l.text
  | .group call e => groupOpening call ++ (e.text ++ [')'])

def Expression.text : Expression → Text
  | .operand x => x.text
  | .chain e op x => e.text ++ (' ' :: op.char :: ' ' :: x.text)

end

mutual

def Operand.value : Operand → ℚ
  | .literal l => l.value
  | .group _ e => e.terms.1 + e.terms.2

/-- The sum of all terms but the last, and the last term. -/
def Expression.terms : Expression → ℚ × ℚ
  | .operand x => (0, x.value)
  | .chain e op x => op.extend e.terms x.value

end

mutual

/-- Nothing is divided by zero. -/
def Operand.Defined : Operand → Prop
  | .literal _ => True
  | .group _ e => e.Defined

def Expression.Defined : Expression → Prop
  | .operand x => x.Defined
  | .chain e op x => e.Defined ∧ x.Defined ∧ (op = .div → x.value ≠ 0)

end

theorem Expression.Defined.chain {e : Expression} {op : Operator} {x : Operand} (front : e.Defined)
    (last : x.Defined) (other : op ≠ .div) : (Expression.chain e op x).Defined :=
  ⟨front, last, fun divides => absurd divides other⟩

/-- The end of the text is where an operand may begin. -/
def BeforeOperand (t : Text) : Prop := ∀ c, t.getLast? = some c → c = '(' ∨ c = ' '

/-- The end of the text is where an expression may begin. -/
def BeforeExpression (t : Text) : Prop := ∀ c, t.getLast? = some c → c = '('

theorem BeforeExpression.operand {t : Text} (before : BeforeExpression t) : BeforeOperand t :=
  fun c last => .inl (before c last)

theorem beforeOperand_concat (t : Text) : BeforeOperand (t ++ [' ']) := by
  intro c last
  simp at last
  exact .inr last.symm

theorem beforeExpression_opening (t : Text) (call : Bool) : BeforeExpression (t ++ groupOpening call) := by
  intro c last
  cases call <;> simp [groupOpening, List.getLast?_append] at last <;> exact last.symm

theorem BeforeOperand.not_numeral {t : Text} (before : BeforeOperand t) {c : Char}
    (last : t.getLast? = some c) : ¬ IsNumeralChar c := by
  rcases before c last with rfl | rfl <;> decide

/-- A run of numeral characters at the end begins where an operand may begin. -/
theorem numeral_suffix {a b x y : Text} (before : BeforeOperand a) (before' : BeforeOperand b)
    (numeral : ∀ c ∈ x, IsNumeralChar c) (numeral' : ∀ c ∈ y, IsNumeralChar c)
    (same : a ++ x = b ++ y) : a = b ∧ x = y := by
  have none_between {a b m : Text} (before : BeforeOperand b) (whole : b = a ++ m)
      (numeral : ∀ c ∈ m, IsNumeralChar c) : m = [] := by
    rcases List.eq_nil_or_concat m with rfl | ⟨front, c, rfl⟩
    · rfl
    · refine absurd (numeral c (by simp)) (before.not_numeral ?_)
      simp [whole]
  rcases List.append_eq_append_iff.mp same with ⟨m, whole, parts⟩ | ⟨m, whole, parts⟩
  · obtain rfl := none_between before' whole fun c member => numeral c (by simp [parts, member])
    simp_all
  · obtain rfl := none_between before whole fun c member => numeral' c (by simp [parts, member])
    simp_all

theorem numeral_ne_closed {a b x : Text} (before : BeforeOperand a) (numeral : ∀ c ∈ x, IsNumeralChar c) :
    a ++ x ≠ b ++ [')'] := by
  intro same
  have last : (a ++ x).getLast? = some ')' := by simp [same]
  rcases List.eq_nil_or_concat x with rfl | ⟨front, c, rfl⟩
  · rw [List.append_nil] at last
    rcases before _ last with closed | closed <;> cases closed
  · simp at last
    exact absurd (numeral ')' (by simp [last])) (by decide)

theorem Literal.numeral_text (l : Literal) : ∀ c ∈ l.text, IsNumeralChar c :=
  isNumeralChar_of_isNumeral l.isNumeral_text

theorem groupOpening_unique {a b : Text} {call call' : Bool} (before : BeforeOperand a)
    (before' : BeforeOperand b) (same : a ++ groupOpening call = b ++ groupOpening call') : a = b := by
  have short {a b : Text} (before : BeforeOperand b) (same : a ++ "calc(" = b ++ "(") : False := by
    have called : b = a ++ "calc" := by
      have parts : (a ++ "calc") ++ "(" = b ++ "(" := by simpa using same
      exact (List.append_cancel_right parts).symm
    rcases before 'c' (by simp [called]) with other | other <;> cases other
  cases call <;> cases call'
  · exact List.append_cancel_right same
  · exact (short before same.symm).elim
  · exact (short before' same).elim
  · exact List.append_cancel_right same

theorem Operand.group_text (a : Text) (call : Bool) (e : Expression) :
    a ++ (Operand.group call e).text = (a ++ groupOpening call ++ e.text) ++ [')'] := by
  simp [Operand.text]

/-- The text in front of the last operand of a chain. -/
theorem Expression.chain_text (a : Text) (e : Expression) (op : Operator) (x : Operand) :
    a ++ (Expression.chain e op x).text = (a ++ e.text ++ [' ', op.char] ++ [' ']) ++ x.text := by
  simp [Expression.text]

theorem BeforeExpression.ne_concat {a b : Text} (before : BeforeExpression a) : a ≠ b ++ [' '] := by
  rintro rfl
  cases before ' ' (by simp)

mutual

theorem Operand.text_unique : ∀ (x y : Operand) {a b : Text}, BeforeOperand a → BeforeOperand b →
    a ++ x.text = b ++ y.text → a = b ∧ x.value = y.value
  | .literal l, .literal l', a, b, before, before', same => by
    obtain ⟨rfl, text⟩ := numeral_suffix before before' l.numeral_text l'.numeral_text same
    exact ⟨rfl, Literal.value_of_text text⟩
  | .literal l, .group call f, a, b, before, _, same => by
    rw [Operand.group_text] at same
    exact absurd same (numeral_ne_closed before l.numeral_text)
  | .group call e, .literal l, a, b, _, before, same => by
    rw [Operand.group_text] at same
    exact absurd same.symm (numeral_ne_closed before l.numeral_text)
  | .group call e, .group call' f, a, b, before, before', same => by
    simp only [Operand.text, ← List.append_assoc, List.append_cancel_right_eq] at same
    obtain ⟨fronts, terms⟩ := Expression.text_unique e f (beforeExpression_opening a call)
      (beforeExpression_opening b call') same
    exact ⟨groupOpening_unique before before' fronts, by rw [Operand.value, Operand.value, terms]⟩

theorem Expression.text_unique : ∀ (e f : Expression) {a b : Text}, BeforeExpression a →
    BeforeExpression b → a ++ e.text = b ++ f.text → a = b ∧ e.terms = f.terms
  | .operand x, .operand y, a, b, before, before', same => by
    obtain ⟨rfl, value⟩ := Operand.text_unique x y before.operand before'.operand same
    exact ⟨rfl, by rw [Expression.terms, Expression.terms, value]⟩
  | .operand x, .chain f op y, a, b, before, _, same => by
    rw [Expression.chain_text] at same
    have fronts := (Operand.text_unique x y before.operand (beforeOperand_concat _) same).1
    exact absurd fronts before.ne_concat
  | .chain e op x, .operand y, a, b, _, before, same => by
    rw [Expression.chain_text] at same
    have fronts := (Operand.text_unique x y (beforeOperand_concat _) before.operand same).1
    exact absurd fronts.symm before.ne_concat
  | .chain e op x, .chain f op' y, a, b, before, before', same => by
    rw [Expression.chain_text, Expression.chain_text] at same
    obtain ⟨fronts, value⟩ :=
      Operand.text_unique x y (beforeOperand_concat _) (beforeOperand_concat _) same
    obtain ⟨fronts, tails⟩ := List.append_inj' (List.append_cancel_right fronts) rfl
    obtain ⟨rfl, terms⟩ := Expression.text_unique e f before before' fronts
    obtain rfl := Operator.char_injective (by simpa using tails)
    exact ⟨rfl, by rw [Expression.terms, Expression.terms, terms, value]⟩

end

/-- The operand behind the last blank is a literal if it looks like a numeral. -/
theorem Expression.ends_with_numeral {e : Expression} {a t : Text} (numeral : ∀ c ∈ t, IsNumeralChar c)
    (same : e.text = a ++ [' '] ++ t) :
    ∃ front op l, e = .chain front op (.literal l) ∧ l.text = t ∧ front.text ++ [' ', op.char] = a := by
  have before := beforeOperand_concat a
  cases e with
  | operand x =>
    cases x with
    | literal l =>
      have blank : ' ' ∈ l.text := by
        rw [show l.text = a ++ [' '] ++ t from same]
        simp
      exact absurd (l.numeral_text _ blank) (by decide)
    | group call f =>
      have closed := Operand.group_text [] call f
      exact absurd (same.symm.trans closed) (numeral_ne_closed before numeral)
  | chain front op x =>
    have parts := Expression.chain_text [] front op x
    cases x with
    | literal l =>
      obtain ⟨fronts, text⟩ := numeral_suffix (beforeOperand_concat _) before l.numeral_text numeral
        (parts.symm.trans same)
      exact ⟨front, op, l, rfl, text, List.append_cancel_right fronts⟩
    | group call f =>
      rw [Operand.group_text] at parts
      exact absurd (same.symm.trans parts) (numeral_ne_closed before numeral)

end AtomicCss
