import AtomicCss.Toml

/-! Numbers, dates and times in a TOML document. Each function judges a whole
token. -/
namespace AtomicCss.Toml

/-- Digits without the underscores between them. -/
def ungroup? (isDigit : Char → Bool) : Text → Option Text
  | [] => none
  | [c] => if isDigit c then some [c] else none
  | c :: '_' :: rest => if isDigit c then (ungroup? isDigit rest).map (c :: ·) else none
  | c :: rest => if isDigit c then (ungroup? isDigit rest).map (c :: ·) else none

/-- The value of a digit in a base of up to sixteen. -/
def digitValue? (base : Nat) (c : Char) : Option Nat :=
  let n := c.toLower.toNat
  let value :=
    if c.isDigit then some (n - '0'.toNat)
    else if 'a'.toNat ≤ n ∧ n ≤ 'f'.toNat then some (n - 'a'.toNat + 10)
    else none
  value.filter fun v => decide (v < base)

def isDigitOf (base : Nat) (c : Char) : Bool := (digitValue? base c).isSome

def natOf (base : Nat) (digits : Text) : Nat :=
  digits.foldl (fun n c => base * n + (digitValue? base c).getD 0) 0

/-- Decimal digits that do not begin with a needless zero. -/
def wholeDigits? (t : Text) : Option Text :=
  (ungroup? Char.isDigit t).filter fun digits => digits.length == 1 || digits.head? != some '0'

/-- Whole numbers have 64 bits. -/
def inRange (n : Int) : Option Int :=
  if -0x8000000000000000 ≤ n ∧ n < 0x8000000000000000 then some n else none

def inBase? (base : Nat) (t : Text) : Option Int :=
  (ungroup? (isDigitOf base) t).bind fun digits => inRange (natOf base digits)

def integer? : Text → Option Int
  | '0' :: 'x' :: rest => inBase? 16 rest
  | '0' :: 'o' :: rest => inBase? 8 rest
  | '0' :: 'b' :: rest => inBase? 2 rest
  | t =>
    let (negative, rest) := Numeral.splitSign t
    (wholeDigits? rest).bind fun digits =>
      inRange (if negative then -(natOf 10 digits : Int) else natOf 10 digits)

def isExponentMark (c : Char) : Bool := c == 'e' || c == 'E'

/-- The part of a number in front of its exponent, without underscores. -/
def mantissa? (t : Text) : Option Text :=
  match Text.splitFirst '.' t with
  | none => wholeDigits? t
  | some (whole, fraction) => do
    return (← wholeDigits? whole) ++ '.' :: (← ungroup? Char.isDigit fraction)

/-- A number with a point or an exponent, or one of the words `inf` and `nan`.
Numbers above the greatest one are refused. -/
def float? (t : Text) : Option Binary64 :=
  let (negative, rest) := Numeral.splitSign t
  if rest = "inf" then some (.infinite negative)
  else if rest = "nan" then some .notANumber
  else do
    let front := rest.takeWhile fun c => !isExponentMark c
    let mantissa ← mantissa? front
    let numeral ←
      match rest.dropWhile fun c => !isExponentMark c with
      | [] => if front.contains '.' then some mantissa else none
      | _ :: exponent =>
        let (below, digits) := Numeral.splitSign exponent
        (ungroup? Char.isDigit digits).map fun digits =>
          mantissa ++ 'e' :: if below then '-' :: digits else digits
    let x := Binary64.ofNumeral
      (← Numeral.ofText? (if negative then '-' :: numeral else numeral))
    if x = .infinite false then none else some x

/-- A number of exactly so many digits, within bounds, and what follows it. -/
def field? (digits low high : Nat) (t : Text) : Option (Nat × Text) :=
  let front := t.take digits
  let n := Numeral.natOfDigits front
  if front.length = digits ∧ front.all Char.isDigit ∧ low ≤ n ∧ n ≤ high then
    some (n, t.drop digits)
  else none

def daysIn (year month : Nat) : Nat :=
  if month = 2 then
    if year % 4 = 0 ∧ (year % 100 ≠ 0 ∨ year % 400 = 0) then 29 else 28
  else if month = 4 ∨ month = 6 ∨ month = 9 ∨ month = 11 then 30
  else 31

/-- A date at the front of a token. -/
def date? (t : Text) : Option (Text × Text) := do
  let (year, rest) ← field? 4 0 9999 t
  let (month, rest) ← field? 2 1 12 (← Text.stripStart? "-" rest)
  let (_, rest) ← field? 2 1 (daysIn year month) (← Text.stripStart? "-" rest)
  some (t.take 10, rest)

/-- The digits after the point of a second. Nine of them count, and zeros at
the end are not written. -/
def secondFraction (digits : Text) : Text :=
  match ((digits.take 9).reverse.dropWhile (· == '0')).reverse with
  | [] => []
  | digits => '.' :: digits

/-- A time of day at the front of a token. -/
def time? (t : Text) : Option (Text × Text) := do
  let (_, rest) ← field? 2 0 23 t
  let (_, rest) ← field? 2 0 59 (← Text.stripStart? ":" rest)
  let (_, rest) ← field? 2 0 60 (← Text.stripStart? ":" rest)
  match rest with
  | '.' :: rest =>
    let digits := rest.takeWhile Char.isDigit
    if digits.isEmpty then none
    else some (t.take 8 ++ secondFraction digits, rest.dropWhile Char.isDigit)
  | rest => some (t.take 8, rest)

/-- The distance from universal time that a token consists of. -/
def offset? : Text → Option Text
  | [] => some []
  | [c] => if c = 'Z' ∨ c = 'z' then some "Z" else none
  | sign :: rest => do
    let (hours, after) ← field? 2 0 23 rest
    let (minutes, after) ← field? 2 0 59 (← Text.stripStart? ":" after)
    if (sign = '+' ∨ sign = '-') ∧ after.isEmpty then
      some ((if hours + minutes = 0 then '+' else sign) :: rest)
    else none

/-- A date, a time, or a date and a time with or without an offset. -/
def moment? (t : Text) : Option Text :=
  match date? t with
  | some (date, []) => some date
  | some (date, c :: rest) => do
    let (time, rest) ← time? rest
    if c = 'T' ∨ c = 't' ∨ c = ' ' then some (date ++ 'T' :: time ++ (← offset? rest)) else none
  | none =>
    match time? t with
    | some (time, []) => some time
    | _ => none

/-- The value of a token that begins like a number. -/
def scalar? (t : Text) : Option Value :=
  ((moment? t).map .moment) <|> ((integer? t).map .integer) <|> ((float? t).map .float)

end AtomicCss.Toml
