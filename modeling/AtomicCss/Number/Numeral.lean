import AtomicCss.Text

/-! Decimal numerals as they may stand in a class: an optional sign, digits with
at most one point and at least one digit, and an optional exponent; or one of
the words `inf`, `infinity` and `nan` in any mix of upper and lower case. -/
namespace AtomicCss

/-- What a numeral denotes. `decimal` stands for `digits * 10 ^ exponent`
with its sign. -/
inductive Numeral where
  | decimal (negative : Bool) (digits : Nat) (exponent : Int)
  | infinite (negative : Bool)
  | notANumber
  deriving DecidableEq, Repr

namespace Numeral

/-- The number that a text of digits denotes. -/
def natOfDigits (t : Text) : Nat := t.foldl (fun n c => 10 * n + (c.toNat - '0'.toNat)) 0

/-- The sign in front of a text, if any, and what follows it. -/
def splitSign : Text → Bool × Text
  | '+' :: rest => (false, rest)
  | '-' :: rest => (true, rest)
  | t => (false, t)

/-- The exponent at the end of a numeral; no text at all stands for zero. -/
def exponent? : Text → Option Int
  | [] => some 0
  | e :: rest =>
    let (negative, digits) := splitSign rest
    if (e = 'e' ∨ e = 'E') ∧ Text.isDigits digits then
      some (if negative then -(natOfDigits digits : Int) else natOfDigits digits)
    else none

/-- A numeral of digits, without its sign. -/
def unsigned? (negative : Bool) (t : Text) : Option Numeral :=
  let whole := t.takeWhile Char.isDigit
  let (fraction, rest) :=
    match t.dropWhile Char.isDigit with
    | '.' :: rest => (rest.takeWhile Char.isDigit, rest.dropWhile Char.isDigit)
    | rest => ([], rest)
  if whole.isEmpty && fraction.isEmpty then none
  else (exponent? rest).map fun e =>
    .decimal negative (natOfDigits (whole ++ fraction)) (e - fraction.length)

/-- Reads a numeral that is the whole text. -/
def ofText? (t : Text) : Option Numeral :=
  let (negative, rest) := splitSign t
  let word := Text.lower rest
  if word = "inf" ∨ word = "infinity" then some (.infinite negative)
  else if word = "nan" then some .notANumber
  else unsigned? negative rest

end Numeral

/-- Whether the whole text is a numeral. -/
def isNumeral (t : Text) : Bool := (Numeral.ofText? t).isSome

end AtomicCss
