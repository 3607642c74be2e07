import AtomicCss.Negative
import AtomicCss.Proofs.Negative.Expression
import AtomicCss.Proofs.Text.Cut
import Mathlib.Tactic.Linarith

/-! When the value with the opposite sign is minus the value. Changing the sign of the
last factor negates a product, but not the terms that are added in front of it; and a
minus sign in front of a plus sign makes no literal. -/
namespace AtomicCss
open Text

/-- The values that are negated as numbers: literals, and arithmetic inside of `calc( )`. -/
inductive Quantity where
  | literal (l : Literal)
  | calculation (e : Expression)

namespace Quantity

def operand : Quantity → Operand
  | literal l => .literal l
  | calculation e => .group true e

def text (v : Quantity) : Text := v.operand.text

def value (v : Quantity) : ℚ := v.operand.value

def Defined (v : Quantity) : Prop := v.operand.Defined

theorem value_of_text {v w : Quantity} (same : v.text = w.text) : v.value = w.value := by
  have start : BeforeOperand [] := nofun
  exact (Operand.text_unique v.operand w.operand start start (a := []) (b := []) same).2

theorem calculation_text (e : Expression) : (calculation e).text = "calc(" ++ (e.text ++ ")") := by
  simp [text, operand, Operand.text, groupOpening]

end Quantity

/-- The literal that an expression ends with as a factor, and what it multiplies. -/
def Expression.factor? : Expression → Option (Expression × Literal)
  | .chain front .mul (.literal l) => some (front, l)
  | _ => none

theorem Expression.factor_eq_some {e front : Expression} {l : Literal} :
    e.factor? = some (front, l) ↔ e = .chain front .mul (.literal l) := by
  constructor
  · intro found
    unfold Expression.factor? at found
    split at found <;> cases found
    rfl
  · rintro rfl
    rfl

theorem Literal.head_text (l : Literal) : l.text.head? = some '-' ↔ l.sign = .minus := by
  obtain ⟨c, rest, unsigned, first⟩ := l.unsigned_head
  have other : c ≠ '-' := by
    rcases first with digit | rfl
    · exact digit_ne digit rfl
    · decide
  rw [Literal.text, unsigned]
  cases l.sign <;> simp [Sign.text, other]

theorem split_product (front : Text) (l : Literal) :
    splitLastText " * " (front ++ (" * " ++ l.text)) = some (front, l.text) := by
  refine @splitLastText_eq_some ' ' ['*', ' '] l.text (fun again => ?_) front
  have blanks := again.sublist.count_le ' '
  have blankless : l.text.count ' ' = 0 :=
    List.count_eq_zero.mpr fun blank => absurd (l.numeral_text _ blank) (by decide)
  simp [blankless] at blanks

theorem lastFactor_factor (front : Expression) (l : Literal) :
    lastFactor? (Expression.chain front .mul (.literal l)).text =
      if l.sign = .minus then none else some (front.text, l.text) := by
  have parts : (Expression.chain front .mul (.literal l)).text = front.text ++ (" * " ++ l.text) := by
    simp [Expression.text, Operand.text, Operator.char]
  unfold lastFactor?
  rw [parts, split_product]
  by_cases minus : l.sign = .minus
  · simp [minus, l.head_text.mpr minus]
  · have head : l.text.head? ≠ some '-' := fun head => minus (l.head_text.mp head)
    simp [minus, head, l.isNumeral_text]

theorem lastFactor_other {e : Expression} (other : e.factor? = none) : lastFactor? e.text = none := by
  unfold lastFactor?
  split
  · rename_i lhs factor found
    split
    · rename_i numeral
      simp only [Bool.and_eq_true] at numeral
      have whole : e.text = lhs ++ [' ', '*'] ++ [' '] ++ factor := by
        rw [splitLastText_whole found]
        simp
      obtain ⟨front, op, l, rfl, -, tail⟩ :=
        Expression.ends_with_numeral (isNumeralChar_of_isNumeral numeral.1) whole
      have same := (List.append_inj' tail rfl).2
      obtain rfl : op = .mul := Operator.char_injective (by simpa [Operator.char] using same)
      cases other
    · rfl
  · rfl

theorem negate_literal (l : Literal) :
    negateValue l.text = if l.sign = .minus then l.unsigned else '-' :: l.text := by
  unfold negateValue
  rw [if_pos l.isNumeral_text]
  by_cases minus : l.sign = .minus
  · rw [if_pos minus, Literal.text, minus]
    rfl
  · rw [if_neg minus]
    split
    · rename_i text
      exact absurd (l.head_text.mp (by simp [text])) minus
    · rfl

/-- The sign of a last factor changes, and else the whole is multiplied by minus one. -/
theorem negate_calc (body : Text) : negateValue ("calc(" ++ (body ++ ")")) =
    match lastFactor? body with
    | some (lhs, factor) => "calc(" ++ lhs ++ " * -" ++ factor ++ ")"
    | none => "calc(" ++ ("calc(" ++ (body ++ ")")) ++ " * -1)" := by
  have word : ¬ isNumeral ("calc(" ++ (body ++ ")")) = true := by
    intro numeral
    exact absurd (isNumeralChar_of_isNumeral numeral '(' (by simp)) (by decide)
  have inner : calcBody? ("calc(" ++ (body ++ ")")) = some body := by
    rw [calcBody?, Option.bind_eq_some_iff]
    exact ⟨body ++ ")", stripStart_eq_some.mpr rfl, stripEnd_eq_some.mpr rfl⟩
  unfold negateValue
  rw [if_neg word, inner]
  cases found : lastFactor? body <;> simp only [Option.bind_some, found]

theorem negate_calculation (e : Expression) : negateValue (Quantity.calculation e).text =
    match lastFactor? e.text with
    | some (lhs, factor) => "calc(" ++ lhs ++ " * -" ++ factor ++ ")"
    | none => "calc(" ++ (Quantity.calculation e).text ++ " * -1)" := by
  rw [Quantity.calculation_text]
  exact negate_calc e.text

namespace Quantity

/-- The negated text is a value again and stands for minus the value. -/
def Negated (v : Quantity) : Prop :=
  ∃ w : Quantity, w.Defined ∧ w.text = negateValue v.text ∧ w.value = -v.value

/-- A plus sign does not go away when a minus sign is written in front of it. -/
theorem literal_negated_iff (l : Literal) : (literal l).Negated ↔ l.sign ≠ .plus := by
  have negated : negateValue (literal l).text = if l.sign = .minus then l.unsigned else '-' :: l.text :=
    negate_literal l
  constructor
  · rintro ⟨w, -, text, -⟩ plus
    rw [negated, if_neg (by simp [plus]), Literal.text, plus] at text
    cases w with
    | literal l' => exact l'.text_ne_signed _ text
    | calculation e =>
      rw [calculation_text] at text
      cases text
  · intro noPlus
    cases sign : l.sign with
    | plus => exact absurd sign noPlus
    | absent =>
      refine ⟨literal (l.withSign .minus), trivial, ?_, ?_⟩
      · rw [negated, if_neg (by simp [sign]), Literal.text, sign]
        rfl
      · simp [value, operand, Operand.value, Literal.value, sign, Sign.negative]
    | minus =>
      refine ⟨literal (l.withSign .absent), trivial, ?_, ?_⟩
      · rw [negated, if_pos sign]
        rfl
      · simp [value, operand, Operand.value, Literal.value, sign, Sign.negative]

/-- Without a last factor that gets a minus sign the whole is multiplied by minus one. -/
theorem negated_by_minusOne {e : Expression} (defined : e.Defined) (none_left : lastFactor? e.text = none) :
    (calculation e).Negated := by
  refine ⟨calculation (.chain (.operand (.group true e)) .mul (.literal .minusOne)),
    .chain defined trivial (by decide), ?_, ?_⟩
  · rw [negate_calculation, none_left, calculation_text]
    have one : Literal.minusOne.text = "-1" := rfl
    simp [Expression.text, Operand.text, Operator.char, groupOpening, calculation_text, one]
  · simp [value, operand, Operand.value, Expression.terms, Operator.extend, Literal.minusOne_value]

/-- The last factor gets a minus sign, unless it has one. -/
theorem negate_factor (front : Expression) {l : Literal} (bare : l.sign ≠ .minus) :
    negateValue (calculation (.chain front .mul (.literal l))).text =
      "calc(" ++ (front.text ++ " * " ++ ('-' :: l.text) ++ ")") := by
  rw [negate_calculation, lastFactor_factor, if_neg bare]
  simp

theorem eq_calculation_of_text {v : Quantity} {t : Text} (text : v.text = "calc(" ++ (t ++ ")")) :
    ∃ e, v = calculation e ∧ e.text = t := by
  cases v with
  | literal l =>
    have paren : '(' ∈ (literal l).text := by simp [text]
    exact absurd (l.numeral_text _ paren) (by decide)
  | calculation e =>
    rw [calculation_text] at text
    exact ⟨e, rfl, List.append_cancel_right (List.append_cancel_left text)⟩

/-- No expression ends with a literal that has a minus sign in front of its plus sign. -/
theorem text_ne_twice_signed (e front : Expression) {l : Literal} (plus : l.sign = .plus) :
    e.text ≠ front.text ++ " * " ++ ('-' :: l.text) := by
  intro body
  have numeral (c : Char) (member : c ∈ '-' :: l.text) : IsNumeralChar c := by
    rcases List.mem_cons.mp member with rfl | member
    · exact .inr (.inr (.inr rfl))
    · exact l.numeral_text c member
  obtain ⟨-, -, l', -, same, -⟩ := Expression.ends_with_numeral (a := front.text ++ [' ', '*'])
    numeral (by simpa using body)
  have signed : l.text = '+' :: l.unsigned := by
    rw [Literal.text, plus]
    rfl
  exact l'.text_ne_signed _ (signed ▸ same)

/-- A minus sign at the last factor negates the last term only. -/
theorem factor_negated_iff {front : Expression} {l : Literal} (defined : front.Defined)
    (bare : l.sign ≠ .minus) :
    (calculation (.chain front .mul (.literal l))).Negated ↔ l.sign = .absent ∧ front.terms.1 = 0 := by
  have written (absent : l.sign = .absent) :
      (calculation (.chain front .mul (.literal (l.withSign .minus)))).text =
        "calc(" ++ (front.text ++ " * " ++ ('-' :: l.text) ++ ")") := by
    rw [calculation_text]
    simp [Expression.text, Operand.text, Operator.char, Literal.text, absent, Sign.text]
  constructor
  · rintro ⟨w, -, text, opposite⟩
    rw [negate_factor front bare] at text
    cases sign : l.sign with
    | minus => exact absurd sign bare
    | plus =>
      obtain ⟨e, rfl, body⟩ := eq_calculation_of_text text
      exact absurd body (text_ne_twice_signed e front sign)
    | absent =>
      rw [value_of_text (text.trans (written sign).symm)] at opposite
      simp [value, operand, Operand.value, Expression.terms, Operator.extend, Literal.value, sign,
        Sign.negative] at opposite
      exact ⟨rfl, by linarith⟩
  · rintro ⟨absent, alone⟩
    refine ⟨calculation (.chain front .mul (.literal (l.withSign .minus))),
      .chain defined trivial (by decide), ?_, ?_⟩
    · rw [negate_factor front bare, written absent]
    · simp [value, operand, Operand.value, Expression.terms, Operator.extend, Literal.value, absent,
        Sign.negative, alone]

/-- The sign of a literal can be changed unless it is a plus sign. A product whose last
factor gets a minus sign must have no plus sign there and no other terms in front of it,
or else terms that add up to zero. -/
def Flips : Quantity → Prop
  | literal l => l.sign ≠ .plus
  | calculation e => ∀ front l, e.factor? = some (front, l) →
      l.sign = .minus ∨ (l.sign = .absent ∧ front.terms.1 = 0)

/-- The value with the opposite sign is written as a value again and is minus the
value exactly if no plus sign gets a minus sign in front of it, and no terms in front
of the last product keep their sign. -/
theorem negated_iff_flips (v : Quantity) (defined : v.Defined) : v.Negated ↔ v.Flips := by
  cases v with
  | literal l => exact literal_negated_iff l
  | calculation e =>
    cases factor : e.factor? with
    | none =>
      have none_left := lastFactor_other factor
      exact iff_of_true (negated_by_minusOne defined none_left) (by simp [Flips, factor])
    | some parts =>
      obtain ⟨front, l⟩ := parts
      obtain rfl := Expression.factor_eq_some.mp factor
      by_cases minus : l.sign = .minus
      · have none_left := lastFactor_factor front l
        rw [if_pos minus] at none_left
        exact iff_of_true (negated_by_minusOne defined none_left) (by simp [Flips, factor, minus])
      · rw [factor_negated_iff defined.1 minus]
        simp [Flips, factor, minus]

def onePlusTwo : Expression := .chain (.operand (.literal .one)) .add (.literal (.natural "2" rfl))

theorem onePlusTwo_defined : onePlusTwo.Defined := .chain trivial trivial (by decide)

/-- `calc((1 + 2) * 3)` -/
def groupedProduct : Quantity :=
  calculation (.chain (.operand (.group false onePlusTwo)) .mul (.literal (.natural "3" rfl)))

/-- Nothing is added in front of the product, so the sign of its last factor is that of the whole. -/
theorem grouped_product_negated : groupedProduct.text = "calc((1 + 2) * 3)" ∧ groupedProduct.Negated := by
  refine ⟨rfl, (negated_iff_flips groupedProduct ?_).mpr ?_⟩
  · exact .chain onePlusTwo_defined trivial (by decide)
  · rintro front l found
    cases found
    exact .inr ⟨rfl, rfl⟩

/-- `calc(1 + 2 * 3)` -/
def sumWithProduct : Quantity :=
  calculation (.chain onePlusTwo .mul (.literal (.natural "3" rfl)))

/-- The term in front of the product keeps its sign: minus five in place of minus seven. -/
theorem sum_not_negated : sumWithProduct.Defined ∧ sumWithProduct.text = "calc(1 + 2 * 3)" ∧
    negateValue sumWithProduct.text = "calc(1 + 2 * -3)" ∧ ¬ sumWithProduct.Negated := by
  refine ⟨.chain onePlusTwo_defined trivial (by decide), rfl, by decide, fun negated => ?_⟩
  have bare : (Literal.natural "3" rfl).sign ≠ .minus := by decide
  have alone := ((factor_negated_iff onePlusTwo_defined bare).mp negated).2
  simp [onePlusTwo, Literal.one, Expression.terms, Operator.extend, Operand.value, Literal.natural_value,
    Numeral.natOfDigits] at alone

end Quantity
end AtomicCss
