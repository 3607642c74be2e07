import AtomicCss.Number.Numeral
import AtomicCss.Proofs.Text.Name
import Mathlib.Data.List.TakeWhile
import Mathlib.Data.Rat.Defs
import Mathlib.Tactic.Ring

/-! Decimal literals as pieces of text with the exact number that they stand for.
The reader of numerals takes every literal for that number, so that the text of a
literal determines the number. Besides literals it takes three words, which denote
no finite number, and nothing else. -/
namespace AtomicCss
open Text

inductive Sign where
  | absent
  | plus
  | minus
  deriving DecidableEq, Repr

namespace Sign

def text : Sign → Text
  | absent => []
  | plus => ['+']
  | minus => ['-']

def negative (s : Sign) : Bool := s = minus

end Sign

/-- A power of ten behind a literal. -/
structure Power where
  letter : Char
  sign : Sign
  digits : Text
  marked : letter = 'e' ∨ letter = 'E'
  written : isDigits digits = true

namespace Power

def text (p : Power) : Text := p.letter :: (p.sign.text ++ p.digits)

def value (p : Power) : Int :=
  if p.sign.negative then -(Numeral.natOfDigits p.digits : Int) else Numeral.natOfDigits p.digits

end Power

/-- Digits with a point among them or without one, at least one digit, perhaps with
a sign in front and a power of ten behind. -/
structure Literal where
  sign : Sign
  whole : Text
  fraction : Option Text
  power : Option Power
  digits : ∀ c ∈ whole ++ fraction.getD [], c.isDigit = true
  written : whole ++ fraction.getD [] ≠ []

namespace Literal

/-- The text behind the whole part. -/
def behind (l : Literal) : Text :=
  l.fraction.elim [] (fun f => '.' :: f) ++ l.power.elim [] Power.text

/-- The text without the sign. -/
def unsigned (l : Literal) : Text := l.whole ++ l.behind

def text (l : Literal) : Text := l.sign.text ++ l.unsigned

/-- The power of ten by which the digits, read as one number, are multiplied. -/
def place (l : Literal) : Int := l.power.elim 0 Power.value - (l.fraction.getD []).length

def magnitude (l : Literal) : ℚ :=
  Numeral.natOfDigits (l.whole ++ l.fraction.getD []) * (10 : ℚ) ^ l.place

def value (l : Literal) : ℚ := if l.sign.negative then -l.magnitude else l.magnitude

/-- The same digits with another sign. -/
def withSign (l : Literal) (s : Sign) : Literal := { l with sign := s }

@[simp] theorem withSign_unsigned (l : Literal) (s : Sign) : (l.withSign s).unsigned = l.unsigned := rfl

@[simp] theorem withSign_sign (l : Literal) (s : Sign) : (l.withSign s).sign = s := rfl

@[simp] theorem withSign_magnitude (l : Literal) (s : Sign) : (l.withSign s).magnitude = l.magnitude := rfl

end Literal

theorem Numeral.natOfDigits_eq_zero_iff {t : Text} (digits : isDigits t = true) :
    natOfDigits t = 0 ↔ ∀ d ∈ t, d = '0' := by
  have each := (isDigits_iff.mp digits).2
  have zero {d : Char} (digit : d.isDigit = true) : d.toNat - '0'.toNat = 0 ↔ d = '0' := by
    simp only [Char.isDigit, Bool.and_eq_true, decide_eq_true_eq, ge_iff_le,
      UInt32.le_iff_toNat_le] at digit
    rw [← Char.toNat_inj]
    exact ⟨fun none_left => le_antisymm (Nat.sub_eq_zero_iff_le.mp none_left) digit.1,
      fun same => Nat.sub_eq_zero_of_le same.le⟩
  -- A number that is begun is zero in the end if it is zero so far and goes on with zeros.
  have begun (n : Nat) : t.foldl (fun n c => 10 * n + (c.toNat - '0'.toNat)) n = 0 ↔
      n = 0 ∧ ∀ d ∈ t, d = '0' := by
    clear digits
    induction t generalizing n with
    | nil => simp
    | cons c t ih =>
      obtain ⟨first, later⟩ := List.forall_mem_cons.mp each
      rw [List.foldl_cons, ih later, List.forall_mem_cons, Nat.add_eq_zero_iff, zero first]
      simp [and_assoc]
  rw [natOfDigits, begun]
  simp

/-- Only the digits decide whether a literal is zero. -/
theorem Literal.value_eq_zero_iff {l : Literal} : l.value = 0 ↔ ∀ c ∈ l.whole ++ l.fraction.getD [], c = '0' := by
  have magnitude : l.value = 0 ↔ l.magnitude = 0 := by
    unfold value
    split <;> simp
  rw [magnitude, ← Numeral.natOfDigits_eq_zero_iff (isDigits_iff.mpr ⟨l.written, l.digits⟩)]
  simp [Literal.magnitude, zpow_ne_zero]

theorem takeWhile_digits {t rest : Text} (digits : ∀ c ∈ t, c.isDigit = true)
    (stops : ∀ c, rest.head? = some c → c.isDigit = false) :
    (t ++ rest).takeWhile Char.isDigit = t ∧ (t ++ rest).dropWhile Char.isDigit = rest := by
  rw [List.takeWhile_append_of_pos digits, List.dropWhile_append_of_pos digits]
  cases rest with
  | nil => simp
  | cons c rest => simp [stops c rfl]

theorem splitSign_text (s : Sign) {t : Text} (unsigned : ∀ c, t.head? = some c → c ≠ '+' ∧ c ≠ '-') :
    Numeral.splitSign (s.text ++ t) = (s.negative, t) := by
  cases s with
  | plus => rfl
  | minus => rfl
  | absent =>
    cases t with
    | nil => rfl
    | cons c t =>
      obtain ⟨noPlus, noMinus⟩ := unsigned c rfl
      simp only [Sign.text, List.nil_append, Numeral.splitSign]
      split <;> simp_all [Sign.negative]

theorem digit_ne {c d : Char} (digit : c.isDigit = true) (other : d.isDigit = false) : c ≠ d := by
  rintro rfl
  simp [digit] at other

theorem toLower_digit {c : Char} (digit : c.isDigit = true) : c.toLower = c := by
  refine toLower_of_not_upper fun upper => ?_
  simp only [Char.isDigit, Bool.and_eq_true, decide_eq_true_eq, ge_iff_le,
    UInt32.le_iff_toNat_le] at digit upper
  have least : 'A'.val.toNat = 65 := rfl
  have most : '9'.val.toNat = 57 := rfl
  omega

namespace Power

theorem text_head (p : Power) {c : Char} (head : p.text.head? = some c) : c = 'e' ∨ c = 'E' := by
  cases head
  exact p.marked

theorem exponent_text (p : Power) : Numeral.exponent? p.text = some p.value := by
  have split : Numeral.splitSign (p.sign.text ++ p.digits) = (p.sign.negative, p.digits) := by
    refine splitSign_text p.sign fun c head => ?_
    have digit := (isDigits_iff.mp p.written).2 c (List.mem_of_mem_head? head)
    exact ⟨digit_ne digit rfl, digit_ne digit rfl⟩
  simp only [text, Numeral.exponent?, split]
  rw [if_pos ⟨p.marked, p.written⟩]
  rfl

end Power

namespace Literal

variable (l : Literal)

theorem digit_of_mem_whole {c : Char} (member : c ∈ l.whole) : c.isDigit = true :=
  l.digits c (List.mem_append_left _ member)

/-- Behind the whole part stand a point, a power of ten or nothing. -/
theorem behind_head {c : Char} (head : l.behind.head? = some c) : c = '.' ∨ c = 'e' ∨ c = 'E' := by
  unfold behind at head
  cases fraction : l.fraction with
  | some f =>
    simp only [fraction, Option.elim_some, List.cons_append, List.head?_cons, Option.some.injEq] at head
    exact .inl head.symm
  | none =>
    cases power : l.power with
    | none => simp [fraction, power] at head
    | some p =>
      simp only [fraction, power, Option.elim_none, Option.elim_some, List.nil_append] at head
      exact .inr (p.text_head head)

theorem unsigned_head : ∃ c rest, l.unsigned = c :: rest ∧ (c.isDigit = true ∨ c = '.') := by
  unfold unsigned
  cases whole : l.whole with
  | cons c rest => exact ⟨c, _, rfl, .inl (l.digit_of_mem_whole (by simp [whole]))⟩
  | nil =>
    have written := l.written
    cases fraction : l.fraction with
    | none => simp [whole, fraction] at written
    | some f => exact ⟨'.', _, by simp [behind, fraction]; rfl, .inr rfl⟩

/-- The sign comes off, and what is left begins with none. -/
theorem splitSign_eq : Numeral.splitSign l.text = (l.sign.negative, l.unsigned) := by
  obtain ⟨c, rest, unsigned, first⟩ := l.unsigned_head
  refine splitSign_text l.sign fun d head => ?_
  rw [unsigned] at head
  cases head
  rcases first with digit | rfl
  · exact ⟨digit_ne digit rfl, digit_ne digit rfl⟩
  · exact ⟨by decide, by decide⟩

theorem unsigned_number (negative : Bool) : Numeral.unsigned? negative l.unsigned =
    some (.decimal negative (Numeral.natOfDigits (l.whole ++ l.fraction.getD [])) l.place) := by
  have stops (c : Char) (head : l.behind.head? = some c) : c.isDigit = false := by
    rcases l.behind_head head with rfl | rfl | rfl <;> rfl
  obtain ⟨whole, rest⟩ := takeWhile_digits (fun c => l.digit_of_mem_whole) stops
  have some_digit : (l.whole.isEmpty && (l.fraction.getD []).isEmpty) = false := by
    have written := l.written
    simp only [ne_eq, List.append_eq_nil_iff, not_and] at written
    simpa using written
  have exponent : Numeral.exponent? (l.power.elim [] Power.text) = some (l.power.elim 0 Power.value) := by
    cases l.power with
    | none => rfl
    | some p => exact p.exponent_text
  unfold Numeral.unsigned? unsigned
  rw [whole, rest]
  cases fraction : l.fraction with
  | some f =>
    have ends (c : Char) (head : (l.power.elim [] Power.text).head? = some c) : c.isDigit = false := by
      cases power : l.power with
      | none => simp [power] at head
      | some p =>
        rw [power] at head
        rcases p.text_head head with rfl | rfl <;> rfl
    have inside (c : Char) (member : c ∈ f) : c.isDigit = true :=
      l.digits c (by simp [fraction, member])
    obtain ⟨taken, left⟩ := takeWhile_digits inside ends
    simp only [fraction, Option.getD_some] at some_digit
    simp [behind, fraction, taken, left, some_digit, exponent, place]
  | none =>
    have some_digit : l.whole ≠ [] := by simpa [fraction] using some_digit
    cases power : l.power with
    | none =>
      simp [behind, fraction, power, some_digit, Numeral.exponent?, place]
    | some p =>
      have exponent := p.exponent_text
      have other : p.letter ≠ '.' := by rcases p.marked with same | same <;> simp [same]
      simp only [Power.text] at exponent
      simp [behind, fraction, power, Power.text, other, some_digit, exponent, place]

/-- The reader of numerals takes a literal for its digits and their place. -/
theorem ofText_text : Numeral.ofText? l.text =
    some (.decimal l.sign.negative (Numeral.natOfDigits (l.whole ++ l.fraction.getD [])) l.place) := by
  obtain ⟨c, rest, unsigned, first⟩ := l.unsigned_head
  have lower : c.toLower = c := by
    rcases first with digit | rfl
    · exact toLower_digit digit
    · rfl
  have noWord {d : Char} (letter : d = 'i' ∨ d = 'n') (word : Text) :
      Text.lower l.unsigned ≠ d :: word := by
    rw [unsigned, Text.lower, List.map_cons, lower]
    intro same
    cases same
    rcases letter with rfl | rfl <;> rcases first with digit | point <;> simp_all
  have word : ¬ (Text.lower l.unsigned = "inf" ∨ Text.lower l.unsigned = "infinity") :=
    not_or.mpr ⟨noWord (.inl rfl) _, noWord (.inl rfl) _⟩
  have word' : Text.lower l.unsigned ≠ "nan" := noWord (.inr rfl) _
  simp only [Numeral.ofText?, l.splitSign_eq]
  rw [if_neg word, if_neg word', unsigned_number]

theorem isNumeral_text : isNumeral l.text = true := by simp [isNumeral, ofText_text]

variable {l}

/-- The text of a literal determines its number. -/
theorem value_of_text {l' : Literal} (same : l.text = l'.text) : l.value = l'.value := by
  have read := l.ofText_text
  rw [same, ofText_text] at read
  simp only [Option.some.injEq, Numeral.decimal.injEq] at read
  obtain ⟨sign, digits, place⟩ := read
  simp only [value, magnitude, sign, digits, place]

/-- No sign follows a sign in a literal. -/
theorem text_ne_signed (l : Literal) (t : Text) : l.text ≠ '-' :: '+' :: t := by
  obtain ⟨c, rest, unsigned, first⟩ := l.unsigned_head
  rw [text, unsigned]
  intro same
  cases sign : l.sign <;> rw [sign] at same <;> cases same <;> rcases first with digit | point <;>
    contradiction

/-- A literal without sign, point and power of ten. -/
def natural (t : Text) (written : isDigits t = true) : Literal where
  sign := .absent
  whole := t
  fraction := none
  power := none
  digits := by simpa using (isDigits_iff.mp written).2
  written := by simpa using (Bool.and_eq_true_iff.mp written).1

theorem natural_magnitude (t : Text) (written : isDigits t = true) :
    (natural t written).magnitude = Numeral.natOfDigits t := by
  simp [magnitude, natural, place]

theorem natural_value (t : Text) (written : isDigits t = true) :
    (natural t written).value = Numeral.natOfDigits t := natural_magnitude t written

def one : Literal := natural "1" rfl

def minusOne : Literal := one.withSign .minus

theorem minusOne_value : minusOne.value = -1 := by
  simp [value, minusOne, one, natural_magnitude, Sign.negative, Numeral.natOfDigits]

end Literal

/-- The characters of numerals. -/
def IsNumeralChar (c : Char) : Prop := c.isAlphanum = true ∨ c = '.' ∨ c = '+' ∨ c = '-'

instance (c : Char) : Decidable (IsNumeralChar c) := inferInstanceAs (Decidable (_ ∨ _))

theorem isNumeralChar_of_digit {c : Char} (digit : c.isDigit = true) : IsNumeralChar c :=
  .inl (isAlphanum_iff.mpr (.inr digit))

theorem isNumeralChar_of_splitSign {t : Text} (rest : ∀ c ∈ (Numeral.splitSign t).2, IsNumeralChar c) :
    ∀ c ∈ t, IsNumeralChar c := by
  unfold Numeral.splitSign at rest
  split at rest
  · rename_i t
    simpa [IsNumeralChar] using rest
  · simpa [IsNumeralChar] using rest
  · exact rest

theorem isNumeralChar_of_lower {c : Char} (lower : c.toLower.isLower = true) : IsNumeralChar c := by
  by_cases upper : 'A'.val ≤ c.val ∧ c.val ≤ 'Z'.val
  · exact .inl (isAlphanum_iff.mpr (.inl (.inl (isUpper_iff.mpr upper))))
  · rw [toLower_of_not_upper upper] at lower
    exact .inl (isAlphanum_of_lower lower)

theorem isNumeralChar_of_exponent {t : Text} {e : Int} (read : Numeral.exponent? t = some e) :
    ∀ c ∈ t, IsNumeralChar c := by
  cases t with
  | nil => simp
  | cons d rest =>
    simp only [Numeral.exponent?] at read
    split at read
    · rename_i power
      obtain ⟨letter, digits⟩ := power
      intro c member
      rcases List.mem_cons.mp member with rfl | member
      · rcases letter with rfl | rfl <;> exact .inl rfl
      · have inside (c : Char) (member : c ∈ (Numeral.splitSign rest).2) : IsNumeralChar c :=
          isNumeralChar_of_digit ((isDigits_iff.mp digits).2 c member)
        exact isNumeralChar_of_splitSign inside c member
    · cases read

theorem isNumeralChar_of_unsigned {negative : Bool} {t : Text} {n : Numeral}
    (read : Numeral.unsigned? negative t = some n) : ∀ c ∈ t, IsNumeralChar c := by
  have run (u : Text) (c : Char) (member : c ∈ u.takeWhile Char.isDigit) : IsNumeralChar c :=
    isNumeralChar_of_digit (List.mem_takeWhile_imp member)
  have behind : ∀ c ∈ t.dropWhile Char.isDigit, IsNumeralChar c := by
    simp only [Numeral.unsigned?] at read
    split at read
    · rename_i rest point
      obtain ⟨-, read⟩ := Option.ite_none_left_eq_some.mp read
      obtain ⟨e, exponent, -⟩ := Option.map_eq_some_iff.mp read
      intro c member
      rw [point] at member
      rcases List.mem_cons.mp member with rfl | member
      · exact .inr (.inl rfl)
      rw [← List.takeWhile_append_dropWhile (p := Char.isDigit) (l := rest)] at member
      rcases List.mem_append.mp member with digit | power
      · exact run rest c digit
      · exact isNumeralChar_of_exponent exponent c power
    · obtain ⟨-, read⟩ := Option.ite_none_left_eq_some.mp read
      obtain ⟨e, exponent, -⟩ := Option.map_eq_some_iff.mp read
      exact isNumeralChar_of_exponent exponent
  intro c member
  rw [← List.takeWhile_append_dropWhile (p := Char.isDigit) (l := t)] at member
  rcases List.mem_append.mp member with digit | rest
  · exact run t c digit
  · exact behind c rest

/-- A numeral has neither blanks nor parentheses. -/
theorem isNumeralChar_of_isNumeral {t : Text} (numeral : isNumeral t = true) :
    ∀ c ∈ t, IsNumeralChar c := by
  obtain ⟨n, read⟩ := Option.isSome_iff_exists.mp numeral
  refine isNumeralChar_of_splitSign fun c member => ?_
  have letters (word : Text) (lower : ∀ d ∈ word, d.isLower = true)
      (same : Text.lower (Numeral.splitSign t).2 = word) : IsNumeralChar c := by
    refine isNumeralChar_of_lower (lower _ ?_)
    rw [← same]
    exact List.mem_map_of_mem member
  simp only [Numeral.ofText?] at read
  split at read
  · rename_i word
    rcases word with word | word
    · exact letters "inf" (forall_of_all rfl) word
    · exact letters "infinity" (forall_of_all rfl) word
  · split at read
    · rename_i word
      exact letters "nan" (forall_of_all rfl) word
    · exact isNumeralChar_of_unsigned read c member

/-- The words that are read as numerals and denote no finite number. -/
def endlessWords : List Text := ["inf", "infinity", "nan"]

/-- Such a word in any mix of upper and lower case, with a sign or without. -/
inductive Endless : Text → Prop
  | intro (s : Sign) {word : Text} (known : Text.lower word ∈ endlessWords) : Endless (s.text ++ word)

theorem splitSign_parts (t : Text) : ∃ s : Sign, t = s.text ++ (Numeral.splitSign t).2 := by
  unfold Numeral.splitSign
  split
  · exact ⟨.plus, rfl⟩
  · exact ⟨.minus, rfl⟩
  · exact ⟨.absent, rfl⟩

/-- What is read as the end of a numeral is a power of ten or nothing. -/
theorem power_of_exponent {t : Text} {e : Int} (read : Numeral.exponent? t = some e) :
    ∃ power : Option Power, t = power.elim [] Power.text := by
  cases t with
  | nil => exact ⟨none, rfl⟩
  | cons letter rest =>
    obtain ⟨s, whole⟩ := splitSign_parts rest
    simp only [Numeral.exponent?] at read
    split at read
    · rename_i shape
      refine ⟨some ⟨letter, s, (Numeral.splitSign rest).2, shape.1, shape.2⟩, ?_⟩
      rw [Option.elim_some, Power.text, ← whole]
    · cases read

/-- What is read as a numeral of digits is a literal, and any sign may stand in front of it. -/
theorem literal_of_unsigned {negative : Bool} {t : Text} {n : Numeral} (s : Sign)
    (read : Numeral.unsigned? negative t = some n) : ∃ l : Literal, s.text ++ t = l.text := by
  have run (u : Text) (c : Char) (member : c ∈ u.takeWhile Char.isDigit) : c.isDigit = true :=
    List.mem_takeWhile_imp member
  have parts := List.takeWhile_append_dropWhile (p := Char.isDigit) (l := t)
  simp only [Numeral.unsigned?] at read
  split at read
  · rename_i behind point
    obtain ⟨written, read⟩ := Option.ite_none_left_eq_some.mp read
    obtain ⟨e, exponent, -⟩ := Option.map_eq_some_iff.mp read
    obtain ⟨power, last⟩ := power_of_exponent exponent
    have digits : ∀ c ∈ t.takeWhile Char.isDigit ++ behind.takeWhile Char.isDigit, c.isDigit = true := by
      intro c member
      exact (List.mem_append.mp member).elim (run t c) (run behind c)
    refine ⟨⟨s, t.takeWhile Char.isDigit, some (behind.takeWhile Char.isDigit), power, digits, ?_⟩, ?_⟩
    · simpa using written
    · rw [Literal.text, Literal.unsigned, Literal.behind, ← last, Option.elim_some, List.cons_append,
        List.takeWhile_append_dropWhile, ← point, parts]
  · obtain ⟨written, read⟩ := Option.ite_none_left_eq_some.mp read
    obtain ⟨e, exponent, -⟩ := Option.map_eq_some_iff.mp read
    obtain ⟨power, last⟩ := power_of_exponent exponent
    refine ⟨⟨s, t.takeWhile Char.isDigit, none, power, by simpa using run t, ?_⟩, ?_⟩
    · simpa using written
    · rw [Literal.text, Literal.unsigned, Literal.behind, ← last, Option.elim_none, List.nil_append, parts]

theorem endless_iff {t : Text} : Endless t ↔ Text.lower (Numeral.splitSign t).2 ∈ endlessWords := by
  constructor
  · rintro ⟨s, known⟩
    rename_i word
    have unsigned (c : Char) (head : word.head? = some c) : c ≠ '+' ∧ c ≠ '-' := by
      obtain ⟨rest, rfl⟩ := List.head?_eq_some_iff.mp head
      constructor <;> rintro rfl <;> simp [endlessWords, Text.lower] at known
    rwa [splitSign_text s unsigned]
  · intro known
    obtain ⟨s, whole⟩ := splitSign_parts t
    rw [whole]
    exact .intro s known

instance (t : Text) : Decidable (Endless t) :=
  decidable_of_iff (endlessWords.contains (Text.lower (Numeral.splitSign t).2) = true)
    (List.contains_iff_mem.trans endless_iff.symm)

/-- The words are read as numerals that are no decimals. -/
theorem ofText_endless {t : Text} (endless : Endless t) :
    ∃ n, Numeral.ofText? t = some n ∧ ∀ negative digits place, n ≠ .decimal negative digits place := by
  have known := endless_iff.mp endless
  simp only [endlessWords, List.mem_cons, List.not_mem_nil, or_false] at known
  simp only [Numeral.ofText?]
  rcases known with inf | infinity | nan
  · exact ⟨_, if_pos (.inl inf), nofun⟩
  · exact ⟨_, if_pos (.inr infinity), nofun⟩
  · exact ⟨.notANumber, by rw [nan]; rfl, nofun⟩

theorem Literal.not_endless (l : Literal) : ¬ Endless l.text := by
  intro endless
  obtain ⟨n, read, other⟩ := ofText_endless endless
  rw [l.ofText_text, Option.some.injEq] at read
  exact other _ _ _ read.symm

/-- The reader of numerals takes literals and these words, and nothing else. -/
theorem isNumeral_iff {t : Text} : isNumeral t = true ↔ (∃ l : Literal, t = l.text) ∨ Endless t := by
  constructor
  · intro numeral
    obtain ⟨n, read⟩ := Option.isSome_iff_exists.mp numeral
    obtain ⟨s, whole⟩ := splitSign_parts t
    simp only [Numeral.ofText?] at read
    rw [whole]
    split at read
    · rename_i word
      exact .inr (.intro s (by simpa [endlessWords] using word.imp_right Or.inl))
    · split at read
      · rename_i word
        exact .inr (.intro s (by simp [endlessWords, word]))
      · exact .inl (literal_of_unsigned s read)
  · rintro (⟨l, rfl⟩ | endless)
    · exact l.isNumeral_text
    · obtain ⟨n, read, -⟩ := ofText_endless endless
      exact Option.isSome_iff_exists.mpr ⟨n, read⟩

end AtomicCss
