import AtomicCss.Proofs.DataType.Words

/-! Literals: numbers with and without units, colours in digits and keywords. Each is a single
word, and an operator in it is the sign of a number. Most types take their literals and calls of
some functions, and nothing else. -/
namespace AtomicCss.DataType
open Text Value

/-- A character of a name or a number that is no operator. -/
def isPlain (c : Char) : Bool := isNameChar c && !isOperatorChar c

theorem isPlain_iff {c : Char} : isPlain c = true ↔ isNameChar c = true ∧ isOperatorChar c = false := by
  simp [isPlain]

theorem isPlain_of_alphanum {c : Char} (letter : c.isAlphanum = true) : isPlain c = true := by
  exact isPlain_iff.mpr ⟨by simp [isNameChar, letter], isOperatorChar_letter letter⟩

theorem isPlain_of_lower {c : Char} (plain : isPlain c.toLower = true) : isPlain c = true := by
  by_cases upper : 'A'.val ≤ c.val ∧ c.val ≤ 'Z'.val
  · exact isPlain_of_alphanum (isAlphanum_iff.mpr (.inl (.inl (isUpper_iff.mpr upper))))
  · rwa [toLower_of_not_upper upper] at plain

/-- Words of a table in any case. -/
theorem isPlain_of_mem {names : List Text} (table : names.all (·.all isPlain) = true) {t : Text}
    (known : Text.lower t ∈ names) : ∀ c ∈ t, isPlain c = true := by
  intro c member
  have plain := List.all_eq_true.mp (List.all_eq_true.mp table _ known) c.toLower (List.mem_map_of_mem member)
  exact isPlain_of_lower plain

/-- A sign, if any, and plain characters. -/
theorem singleWord_of_plain {sign t : Text} (signed : sign = [] ∨ sign = ['+'] ∨ sign = ['-'])
    (some_left : t ≠ []) (plain : ∀ c ∈ t, isPlain c = true) : SingleWord (sign ++ t) := by
  have letters : ∀ c ∈ t, isWordChar c = true := fun c member =>
    isWordChar_of_isNameChar (isPlain_iff.mp (plain c member)).1
  have inert : ∀ c ∈ t, isOperatorChar c = false := fun c member => (isPlain_iff.mp (plain c member)).2
  obtain ⟨d, u, rfl⟩ := List.exists_cons_of_ne_nil some_left
  obtain ⟨first, later⟩ := List.forall_mem_cons.mp inert
  rcases signed with rfl | rfl | rfl
  · exact ⟨letters, some_left, by rintro c ⟨⟩; exact first, later⟩
  · exact ⟨List.forall_mem_cons.mpr ⟨rfl, letters⟩, List.cons_ne_nil _ _, by rintro c ⟨⟩, inert⟩
  · exact ⟨List.forall_mem_cons.mpr ⟨rfl, letters⟩, List.cons_ne_nil _ _, by rintro c ⟨⟩, inert⟩

theorem splitDigits_parts (pointSeen : Bool) (t : Text) :
    t = (splitDigits pointSeen t).1 ++ (splitDigits pointSeen t).2 ∧
      ∀ c ∈ (splitDigits pointSeen t).1, c.isDigit = true ∨ c = '.' := by
  fun_induction splitDigits pointSeen t with
  | case1 => simp
  | case2 pointSeen c rest digit digits unit split ih =>
    rw [split] at ih
    exact ⟨by rw [List.cons_append, ← ih.1], List.forall_mem_cons.mpr ⟨.inl digit, ih.2⟩⟩
  | case3 pointSeen c rest _ point digits unit split ih =>
    rw [split] at ih
    have point : c = '.' := by simpa using (Bool.and_eq_true_iff.mp point).1
    exact ⟨by rw [List.cons_append, ← ih.1], List.forall_mem_cons.mpr ⟨.inr point, ih.2⟩⟩
  | case4 => simp

/-- The text behind its sign. -/
def withoutSign : Text → Text
  | '+' :: rest => rest
  | '-' :: rest => rest
  | t => t

theorem withoutSign_parts (t : Text) :
    ∃ sign, (sign = [] ∨ sign = ['+'] ∨ sign = ['-']) ∧ t = sign ++ withoutSign t := by
  unfold withoutSign
  split
  · exact ⟨['+'], .inr (.inl rfl), rfl⟩
  · exact ⟨['-'], .inr (.inr rfl), rfl⟩
  · exact ⟨[], .inl rfl, rfl⟩

theorem splitNumber_eq (t : Text) : splitNumber? t =
    if (splitDigits false (withoutSign t)).1.any Char.isDigit then some (splitDigits false (withoutSign t))
    else none := rfl

/-- A number is a sign, if any, and digits with its unit behind them. -/
theorem splitNumber_parts {t digits unit : Text} (read : splitNumber? t = some (digits, unit)) :
    ∃ sign, (sign = [] ∨ sign = ['+'] ∨ sign = ['-']) ∧ t = sign ++ (digits ++ unit) ∧ digits ≠ [] ∧
      ∀ c ∈ digits, c.isDigit = true ∨ c = '.' := by
  obtain ⟨sign, signed, whole⟩ := withoutSign_parts t
  rw [splitNumber_eq] at read
  obtain ⟨some_digit, split⟩ := Option.ite_none_right_eq_some.mp read
  rw [Option.some.injEq] at split
  obtain ⟨parts, points⟩ := splitDigits_parts false (withoutSign t)
  rw [split] at parts points some_digit
  refine ⟨sign, signed, by rw [← parts, ← whole], ?_, points⟩
  rintro rfl
  cases some_digit

/-- A number with plain characters behind it. -/
theorem singleWord_of_number {t digits unit : Text} (read : splitNumber? t = some (digits, unit))
    (plain : ∀ c ∈ unit, isPlain c = true) : SingleWord t := by
  obtain ⟨sign, signed, rfl, some_left, points⟩ := splitNumber_parts read
  refine singleWord_of_plain signed (by simp [some_left]) fun c member => ?_
  rcases List.mem_append.mp member with member | member
  · rcases points c member with digit | rfl
    · exact isPlain_of_alphanum (isAlphanum_iff.mpr (.inr digit))
    · rfl
  · exact plain c member

theorem singleWord_of_isNumber {t : Text} (number : isNumber t = true) : SingleWord t := by
  obtain ⟨⟨digits, unit⟩, read, empty⟩ := (Option.any_eq_true _ _).mp number
  obtain rfl : unit = [] := List.isEmpty_iff.mp empty
  exact singleWord_of_number read nofun

theorem isNumber_of_isZero {t : Text} (zero : isZero t = true) : isNumber t = true := by
  obtain ⟨⟨digits, unit⟩, read, empty⟩ := (Option.any_eq_true _ _).mp zero
  exact (Option.any_eq_true _ _).mpr ⟨_, read, (Bool.and_eq_true_iff.mp empty).1⟩

theorem singleWord_of_isPercentage {t : Text} (percentage : isPercentage t = true) : SingleWord t := by
  obtain ⟨⟨digits, unit⟩, read, percent⟩ := (Option.any_eq_true _ _).mp percentage
  obtain rfl : unit = ['%'] := beq_iff_eq.mp percent
  exact singleWord_of_number read (List.forall_mem_singleton.mpr rfl)

theorem singleWord_of_hasUnit {units : List Text} (table : units.all (·.all isPlain) = true) {t : Text}
    (measured : hasUnit units t = true) : SingleWord t := by
  obtain ⟨⟨digits, unit⟩, read, known⟩ := (Option.any_eq_true _ _).mp measured
  exact singleWord_of_number read (isPlain_of_mem table (List.contains_iff_mem.mp known))

theorem isInteger_eq (t : Text) : isInteger t = Text.isDigits (withoutSign t) := by
  unfold isInteger withoutSign
  split <;> simp_all

theorem singleWord_of_isInteger {t : Text} (integer : isInteger t = true) : SingleWord t := by
  obtain ⟨sign, signed, whole⟩ := withoutSign_parts t
  rw [isInteger_eq] at integer
  obtain ⟨some_left, digits⟩ := isDigits_iff.mp integer
  rw [whole]
  exact singleWord_of_plain signed some_left fun c member =>
    isPlain_of_alphanum (isAlphanum_iff.mpr (.inr (digits c member)))

/-- A keyword of a table in any case. -/
theorem singleWord_of_keyword {names : List Text} (table : names.all (fun k => !k.isEmpty && k.all isPlain) = true)
    {t : Text} (known : names.contains (Text.lower t) = true) : SingleWord t := by
  have known := List.contains_iff_mem.mp known
  have plain : names.all (·.all isPlain) = true :=
    List.all_eq_true.mpr fun k member => (Bool.and_eq_true_iff.mp (List.all_eq_true.mp table k member)).2
  have filled := (Bool.and_eq_true_iff.mp (List.all_eq_true.mp table _ known)).1
  refine singleWord_of_plain (.inl rfl) ?_ (isPlain_of_mem plain known)
  rintro rfl
  cases filled

/-- The literals of a type. -/
def isLiteral : DataType → Text → Bool
  | color, '#' :: digits => isHexColor digits
  | color, t => colorKeywords.contains (Text.lower t)
  | length, t => isZero t || hasUnit lengthUnits t
  | percentage, t => isPercentage t
  | number, t => isNumber t
  | integer, t => isInteger t
  | angle, t => hasUnit angleUnits t
  | lineWidth, t => lineWidthKeywords.contains t || isZero t || hasUnit lengthUnits t
  | _, _ => false

/-- The functions of which a call is a value of the type. -/
def functions : DataType → List Text
  | color => colorFunctions
  | length | percentage | number | angle | lineWidth => calculations
  | url => ["url"]
  | image => imageFunctions
  | _ => []

theorem isPlain_of_isHexDigit {c : Char} (digit : isHexDigit c = true) : isPlain c = true := by
  refine isPlain_of_alphanum (isAlphanum_iff.mpr ?_)
  simp only [isHexDigit, Bool.or_eq_true, Bool.and_eq_true, decide_eq_true_eq] at digit
  rcases digit with (digit | ⟨low, high⟩) | ⟨low, high⟩
  · exact .inr digit
  · exact .inl (.inr (isLower_iff.mpr ⟨low, UInt32.le_trans high (by decide)⟩))
  · exact .inl (.inl (isUpper_iff.mpr ⟨low, UInt32.le_trans high (by decide)⟩))

theorem singleWord_of_hexColor {digits : Text} (color : isHexColor digits = true) :
    SingleWord ('#' :: digits) := by
  simp only [isHexColor, Bool.and_eq_true, List.all_eq_true] at color
  have plain (c : Char) (member : c ∈ digits) := isPlain_iff.mp (isPlain_of_isHexDigit (color.2 c member))
  refine ⟨List.forall_mem_cons.mpr ⟨rfl, fun c member => isWordChar_of_isNameChar (plain c member).1⟩,
    List.cons_ne_nil _ _, ?_, fun c member => (plain c member).2⟩
  rintro c ⟨⟩
  rfl

theorem singleWord_of_isLength {t : Text} (literal : (isZero t || hasUnit lengthUnits t) = true) : SingleWord t := by
  rcases Bool.or_eq_true_iff.mp literal with zero | measured
  · exact singleWord_of_isNumber (isNumber_of_isZero zero)
  · exact singleWord_of_hasUnit (by decide) measured

theorem singleWord_of_isLiteral (type : DataType) {t : Text} (literal : isLiteral type t = true) :
    SingleWord t := by
  cases type with
  | color =>
    unfold isLiteral at literal
    split at literal
    · exact singleWord_of_hexColor literal
    · exact singleWord_of_keyword (by decide +kernel) literal
    all_goals contradiction
  | length => exact singleWord_of_isLength literal
  | percentage => exact singleWord_of_isPercentage literal
  | number => exact singleWord_of_isNumber literal
  | integer => exact singleWord_of_isInteger literal
  | angle => exact singleWord_of_hasUnit (by decide) literal
  | lineWidth =>
    rw [isLiteral, Bool.or_assoc] at literal
    rcases Bool.or_eq_true_iff.mp literal with keyword | literal
    · have known := List.contains_iff_mem.mp keyword
      simp only [lineWidthKeywords, List.mem_cons, List.not_mem_nil, or_false] at known
      rcases known with rfl | rfl | rfl <;>
        exact singleWord_of_plain (.inl rfl) (by decide) (forall_of_all rfl)
    · exact singleWord_of_isLength literal
  | _ => cases literal

end AtomicCss.DataType
