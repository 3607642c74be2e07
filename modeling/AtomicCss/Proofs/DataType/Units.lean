import AtomicCss.Proofs.DataType.Canonical
import AtomicCss.Proofs.Negative.Literal

/-! Numbers and the units behind them. What is read as a number without a unit is a decimal literal
without a power of ten. For a value that is no call the unit alone decides on the type, except that
a zero without a unit is a length besides being a number. -/
namespace AtomicCss.DataType
open Text

/-- The types that have literals of their own and are told apart by them. -/
def literalTypes : List DataType := [color, length, percentage, angle, ratio, number]

/-- The value is this number without a unit. Whatever goes on behind the digits is a unit here, and
a power of ten is none that is known. -/
structure Unitless (l : Literal) (t : Text) : Prop where
  plain : l.power = none
  written : trim t = l.text

/-- The value is a zero without a unit, in any spelling. -/
def UnitlessZero (t : Text) : Prop := ∃ l, Unitless l t ∧ l.value = 0

/-- Digits are taken whether a point was seen or not. -/
theorem splitDigits_digits {whole : Text} (digits : ∀ c ∈ whole, c.isDigit = true) (pointSeen : Bool)
    (rest : Text) : splitDigits pointSeen (whole ++ rest) =
      (whole ++ (splitDigits pointSeen rest).1, (splitDigits pointSeen rest).2) := by
  induction whole with
  | nil => rfl
  | cons c whole ih =>
    obtain ⟨digit, digits⟩ := List.forall_mem_cons.mp digits
    rw [List.cons_append, splitDigits, if_pos digit, ih digits]
    rfl

theorem splitDigits_all {t : Text} (digits : ∀ c ∈ t, c.isDigit = true) (pointSeen : Bool) :
    splitDigits pointSeen t = (t, []) := by
  simpa [splitDigits] using splitDigits_digits digits pointSeen []

/-- Digits and what behind them is neither a digit nor a first point. -/
theorem splitDigits_cut (pointSeen : Bool) (t : Text) : ∃ whole rest, t = whole ++ rest ∧
    (∀ c ∈ whole, c.isDigit = true) ∧ splitDigits pointSeen t =
      (whole ++ (splitDigits pointSeen rest).1, (splitDigits pointSeen rest).2) ∧
    ∀ c, rest.head? = some c → c.isDigit = false := by
  have digits : ∀ c ∈ t.takeWhile Char.isDigit, c.isDigit = true := fun c => List.mem_takeWhile_imp
  have parts := (List.takeWhile_append_dropWhile (p := Char.isDigit) (l := t)).symm
  refine ⟨_, _, parts, digits, ?_, fun c head => ?_⟩
  · conv => lhs; rw [parts, splitDigits_digits digits]
  · have stops := List.head?_dropWhile_not Char.isDigit t
    simpa [head] using stops

/-- After the point only digits are taken. -/
theorem digits_of_splitDigits {t : Text} (ends : (splitDigits true t).2 = []) : ∀ c ∈ t, c.isDigit = true := by
  obtain ⟨whole, rest, rfl, digits, split, stops⟩ := splitDigits_cut true t
  cases rest with
  | nil => simpa using digits
  | cons c rest => simp [split, splitDigits, stops c rfl] at ends

/-- Nothing is left behind digits with one point among them or none. -/
theorem parts_of_splitDigits {t : Text} (ends : (splitDigits false t).2 = []) :
    ∃ whole, ∃ fraction : Option Text, t = whole ++ fraction.elim [] ('.' :: ·) ∧
      ∀ c ∈ whole ++ fraction.getD [], c.isDigit = true := by
  obtain ⟨whole, rest, rfl, digits, split, stops⟩ := splitDigits_cut false t
  cases rest with
  | nil => exact ⟨whole, none, rfl, by simpa using digits⟩
  | cons c rest =>
    have point : c = '.' := by
      by_contra other
      simp [split, splitDigits, stops c rfl, other] at ends
    subst point
    rw [split, splitDigits, if_neg (by decide), if_pos (by decide)] at ends
    exact ⟨whole, some rest, rfl, List.forall_mem_append.mpr ⟨digits, digits_of_splitDigits ends⟩⟩

theorem withoutSign_eq (t : Text) : withoutSign t = (Numeral.splitSign t).2 := by
  unfold withoutSign Numeral.splitSign
  split <;> simp_all

/-- The characters of digits with a point among them or without one. -/
theorem mem_pointed {whole : Text} {fraction : Option Text} {c : Char} :
    c ∈ whole ++ fraction.elim [] ('.' :: ·) ↔ c ∈ whole ++ fraction.getD [] ∨ c = '.' ∧ fraction.isSome = true := by
  cases fraction with
  | none => simp
  | some f =>
    simp only [Option.elim_some, Option.getD_some, Option.isSome_some, List.mem_append, List.mem_cons]
    tauto

section

variable {l : Literal} (plain : l.power = none)

include plain

theorem unsigned_plain : l.unsigned = l.whole ++ l.fraction.elim [] ('.' :: ·) := by
  simp [Literal.unsigned, Literal.behind, plain]

theorem splitDigits_unsigned : splitDigits false l.unsigned = (l.unsigned, []) := by
  rw [unsigned_plain plain, splitDigits_digits fun c => l.digit_of_mem_whole]
  cases fraction : l.fraction with
  | none => rfl
  | some f =>
    have digits : ∀ c ∈ f, c.isDigit = true := fun c member => l.digits c (by simp [fraction, member])
    rw [Option.elim_some, splitDigits, if_neg (by decide), if_pos (by decide), splitDigits_all digits]

/-- A literal without a power of ten is all number and no unit. -/
theorem splitNumber_text : splitNumber? l.text = some (l.unsigned, []) := by
  have some_digit : l.unsigned.any Char.isDigit = true := by
    obtain ⟨d, member⟩ := List.exists_mem_of_ne_nil _ l.written
    refine List.any_eq_true.mpr ⟨d, ?_, l.digits d member⟩
    rw [unsigned_plain plain]
    exact mem_pointed.mpr (.inl member)
  rw [splitNumber_eq, withoutSign_eq, l.splitSign_eq, splitDigits_unsigned plain, if_pos some_digit]

theorem isNumber_text : isNumber l.text = true := by
  rw [isNumber, splitNumber_text plain]
  rfl

/-- It is recognized as a zero exactly if it denotes zero. -/
theorem isZero_text : isZero l.text = true ↔ l.value = 0 := by
  have zeros : isZero l.text = true ↔ ∀ c ∈ l.unsigned, c = '0' ∨ c = '.' := by
    simp [isZero, splitNumber_text plain]
  rw [zeros, Literal.value_eq_zero_iff, unsigned_plain plain]
  constructor
  · intro each c member
    exact (each c (mem_pointed.mpr (.inl member))).resolve_right (digit_ne (l.digits c member) rfl)
  · intro each c member
    exact (mem_pointed.mp member).imp (each c) And.left

end

/-- The texts that are recognized as numbers are the literals without a power of ten. -/
theorem literal_of_isNumber {t : Text} (number : isNumber t = true) :
    ∃ l : Literal, l.power = none ∧ t = l.text := by
  obtain ⟨⟨digits, unit⟩, read, empty⟩ := (Option.any_eq_true _ _).mp number
  obtain rfl : unit = [] := List.isEmpty_iff.mp empty
  rw [splitNumber_eq] at read
  obtain ⟨some_digit, split⟩ := Option.ite_none_right_eq_some.mp read
  rw [Option.some.injEq] at split
  obtain ⟨whole, fraction, parts, each⟩ := parts_of_splitDigits (t := withoutSign t) (by rw [split])
  have all_digits : withoutSign t = digits := by
    have same := (splitDigits_parts false (withoutSign t)).1
    rwa [split, List.append_nil] at same
  rw [split, ← all_digits, parts] at some_digit
  obtain ⟨c, member, digit⟩ := List.any_eq_true.mp some_digit
  have written : whole ++ fraction.getD [] ≠ [] := by
    rcases mem_pointed.mp member with inside | ⟨rfl, -⟩
    · exact List.ne_nil_of_mem inside
    · cases digit
  obtain ⟨s, signed⟩ := splitSign_parts t
  rw [← withoutSign_eq, parts] at signed
  refine ⟨⟨s, whole, fraction, none, each, written⟩, rfl, ?_⟩
  simp [signed, Literal.text, Literal.unsigned, Literal.behind]

theorem unitlessZero_iff {t : Text} : UnitlessZero t ↔ isZero (trim t) = true := by
  constructor
  · rintro ⟨l, ⟨plain, written⟩, zero⟩
    rw [written]
    exact (isZero_text plain).mpr zero
  · intro zero
    obtain ⟨l, plain, written⟩ := literal_of_isNumber (isNumber_of_isZero zero)
    exact ⟨l, ⟨plain, written⟩, (isZero_text plain).mp (written ▸ zero)⟩

instance (t : Text) : Decidable (UnitlessZero t) := decidable_of_iff _ unitlessZero_iff.symm

/-- The characters that a number may begin with. -/
def beginsNumber (c : Char) : Bool := c.isDigit || c == '.' || c == '+' || c == '-'

theorem toLower_of_beginsNumber {c : Char} (begins : beginsNumber c = true) : c.toLower = c := by
  simp only [beginsNumber, Bool.or_eq_true, beq_iff_eq] at begins
  rcases begins with ((digit | rfl) | rfl) | rfl
  · exact toLower_digit digit
  all_goals rfl

theorem beginsNumber_of_splitNumber {t digits unit : Text} (read : splitNumber? t = some (digits, unit)) :
    ∃ c rest, t = c :: rest ∧ beginsNumber c = true := by
  obtain ⟨sign, signed, rfl, some_left, points⟩ := splitNumber_parts read
  obtain ⟨d, digits, rfl⟩ := List.exists_cons_of_ne_nil some_left
  rcases signed with rfl | rfl | rfl
  · refine ⟨d, _, rfl, ?_⟩
    rcases points d (.head digits) with digit | rfl
    · simp [beginsNumber, digit]
    · rfl
  · exact ⟨'+', _, rfl, rfl⟩
  · exact ⟨'-', _, rfl, rfl⟩

/-- No color begins like a number. -/
theorem splitNumber_color {t : Text} (literal : isLiteral color t = true) : splitNumber? t = none := by
  cases read : splitNumber? t with
  | none => rfl
  | some number =>
    obtain ⟨c, rest, rfl, begins⟩ := beginsNumber_of_splitNumber read
    unfold isLiteral at literal
    split at literal
    · rename_i hash
      cases hash
      cases begins
    · have names : colorKeywords.all (fun k => !k.head?.any beginsNumber) = true := by decide +kernel
      have known := List.all_eq_true.mp names _ (List.contains_iff_mem.mp literal)
      simp [Text.lower, toLower_of_beginsNumber begins, begins] at known
    all_goals contradiction

/-- The unit, in lower case, of the number in front of a value. -/
def unit? (t : Text) : Option Text := (splitNumber? t).map fun (_, unit) => Text.lower unit

/-- The type of the values with this unit, or of those with no number in front. -/
def unitType : Option Text → DataType
  | none => color
  | some unit =>
    if lengthUnits.contains unit then length
    else if angleUnits.contains unit then angle
    else if unit = ['%'] then percentage
    else number

theorem unitType_of_hasUnit {units : List Text} {type : DataType} (table : ∀ u ∈ units, unitType (some u) = type)
    {t : Text} (measured : hasUnit units t = true) : unitType (unit? t) = type := by
  obtain ⟨⟨digits, unit⟩, read, known⟩ := (Option.any_eq_true _ _).mp measured
  rw [unit?, read]
  exact table _ (List.contains_iff_mem.mp known)

theorem unitType_of_isNumber {t : Text} (read : isNumber t = true) : unitType (unit? t) = number := by
  obtain ⟨⟨digits, unit⟩, read, empty⟩ := (Option.any_eq_true _ _).mp read
  obtain rfl : unit = [] := List.isEmpty_iff.mp empty
  rw [unit?, read]
  rfl

theorem unitType_of_isPercentage {t : Text} (read : isPercentage t = true) : unitType (unit? t) = percentage := by
  obtain ⟨⟨digits, unit⟩, read, percent⟩ := (Option.any_eq_true _ _).mp read
  obtain rfl : unit = ['%'] := beq_iff_eq.mp percent
  rw [unit?, read]
  rfl

/-- A literal has the type of its unit, or it is a zero among the lengths. -/
theorem unitType_of_isLiteral {type : DataType} (known : type ∈ literalTypes) {t : Text}
    (literal : isLiteral type t = true) : unitType (unit? t) = type ∨ type = length ∧ isZero t = true := by
  cases type with
  | color =>
    rw [unit?, splitNumber_color literal]
    exact .inl rfl
  | length =>
    rcases Bool.or_eq_true_iff.mp literal with zero | measured
    · exact .inr ⟨rfl, zero⟩
    · exact .inl (unitType_of_hasUnit (by decide) measured)
  | percentage => exact .inl (unitType_of_isPercentage literal)
  | angle => exact .inl (unitType_of_hasUnit (by decide) literal)
  | ratio => cases literal
  | number => exact .inl (unitType_of_isNumber literal)
  | _ => exact absurd known (by decide)

/-- A slash stands behind the first number of a ratio, and no literal has one there. -/
theorem not_isRatio_of_isLiteral {type : DataType} {t : Text} (literal : isLiteral type t = true) :
    isRatio t = false := by
  refine Bool.eq_false_iff.mpr fun ratio => ?_
  obtain ⟨a, b, cut, left, -⟩ := isRatio_iff.mp ratio
  obtain ⟨rfl, -⟩ := splitFirst_eq_some.mp cut
  have single := singleWord_of_isLiteral type literal
  cases a with
  | nil => exact absurd rfl (singleWord_of_isNumber left).some_left
  | cons c a => exact absurd (single.inert '/' (by simp)) (by decide)

section

variable {t : Text} (alone : callName? (trim t) = none)

include alone

/-- A value that is no call is a literal of the type or a ratio. -/
theorem literal_of_accepts {type : DataType} (known : type ∈ literalTypes) (accepted : type.accepts t = true) :
    isLiteral type (trim t) = true ∨ type = ratio ∧ isRatio (trim t) = true := by
  have uncalled (names : List Text) : callsOneOf names (trim t) = false := by
    rw [callsOneOf, alone]
    rfl
  obtain ⟨-, reference | recognized⟩ := accepts_iff.mp accepted
  · rw [uncalled] at reference
    cases reference
  by_cases divided : type = ratio
  · subst divided
    exact .inr ⟨rfl, recognized⟩
  · have simple : ∀ type ∈ literalTypes, type ≠ ratio → isSimple type = true := by decide
    rw [recognizes_simple (simple type known divided), uncalled, Bool.or_false] at recognized
    exact .inl recognized

/-- Two types of one value are those of a zero without a unit. -/
theorem same_type_or_zero {type other : DataType} (known : type ∈ literalTypes) (known' : other ∈ literalTypes)
    (accepted : type.accepts t = true) (accepted' : other.accepts t = true) : type = other ∨ UnitlessZero t := by
  rcases literal_of_accepts alone known accepted with literal | ⟨rfl, divided⟩ <;>
    rcases literal_of_accepts alone known' accepted' with literal' | ⟨rfl, divided'⟩
  · -- Both are the type of the one unit, unless one is a length because of a zero.
    rcases unitType_of_isLiteral known literal with unit | ⟨-, zero⟩
    · rcases unitType_of_isLiteral known' literal' with unit' | ⟨-, zero⟩
      · exact .inl (unit.symm.trans unit')
      · exact .inr (unitlessZero_iff.mpr zero)
    · exact .inr (unitlessZero_iff.mpr zero)
  · rw [not_isRatio_of_isLiteral literal] at divided'
    cases divided'
  · rw [not_isRatio_of_isLiteral literal'] at divided
    cases divided
  · exact .inl rfl

end

/-- A number without a unit is no call. -/
theorem Unitless.callName_eq {l : Literal} {t : Text} (unitless : Unitless l t) : callName? (trim t) = none := by
  rw [unitless.written, callName?, (singleWord_of_isNumber (isNumber_text unitless.plain)).parse_eq]

/-- A number without a unit is a number, a length if it is zero, and no more. -/
theorem accepts_unitless {l : Literal} {t : Text} (unitless : Unitless l t) {type : DataType}
    (known : type ∈ literalTypes) : type.accepts t = true ↔ type = number ∨ type = length ∧ l.value = 0 := by
  have read : isLiteral number (trim t) = true := by
    rw [unitless.written]
    exact isNumber_text unitless.plain
  constructor
  · intro accepted
    rcases literal_of_accepts unitless.callName_eq known accepted with literal | ⟨rfl, divided⟩
    · rcases unitType_of_isLiteral known literal with unit | ⟨rfl, zero⟩
      · exact .inl (unit.symm.trans (unitType_of_isNumber read))
      · rw [unitless.written, isZero_text unitless.plain] at zero
        exact .inr ⟨rfl, zero⟩
    · rw [not_isRatio_of_isLiteral read] at divided
      cases divided
  · have some_left : trim t ≠ [] := (singleWord_of_isNumber read).some_left
    have literal {type : DataType} (simple : isSimple type = true) (literal : isLiteral type (trim t) = true) :
        type.accepts t = true := by
      refine accepts_iff.mpr ⟨some_left, .inr ?_⟩
      rw [recognizes_simple simple, literal, Bool.true_or]
    rintro (rfl | ⟨rfl, zero⟩)
    · exact literal rfl read
    · refine literal rfl ?_
      rw [← isZero_text unitless.plain, ← unitless.written] at zero
      simp [isLiteral, zero]

/-- The numbers among the values that are no calls have no unit. -/
theorem number_iff_unitless {t : Text} (alone : callName? (trim t) = none) :
    number.accepts t = true ↔ ∃ l, Unitless l t := by
  constructor
  · intro accepted
    obtain read | ⟨none, -⟩ := literal_of_accepts alone (by decide) accepted
    · obtain ⟨l, plain, written⟩ := literal_of_isNumber read
      exact ⟨l, plain, written⟩
    · cases none
  · rintro ⟨l, unitless⟩
    exact (accepts_unitless unitless (by decide)).mpr (.inl rfl)

/-- Whole numbers are numbers. -/
theorem number_of_integer {t : Text} (accepted : integer.accepts t = true) : number.accepts t = true := by
  obtain ⟨some_left, reference | whole⟩ := accepts_iff.mp accepted
  · exact accepts_iff.mpr ⟨some_left, .inl reference⟩
  · rw [recognizes, isInteger_eq, withoutSign_eq] at whole
    obtain ⟨s, parts⟩ := splitSign_parts (trim t)
    have text : trim t = ((Literal.natural _ whole).withSign s).text := by
      conv => lhs; rw [parts]
      rw [Literal.text, Literal.withSign_sign, Literal.withSign_unsigned]
      simp [Literal.natural, Literal.unsigned, Literal.behind]
    have read : isNumber (trim t) = true := by
      rw [text]
      exact isNumber_text rfl
    exact accepts_iff.mpr ⟨some_left, .inr (by simp [recognizes, read])⟩

end AtomicCss.DataType
