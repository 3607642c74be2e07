import AtomicCss.Number.Binary64

/-! The shortest decimal text of a binary number: the fewest digits that read
back as the same number, of these the nearest to it, and the greater one of
two that are equally near. It is written positionally, without an exponent. -/
namespace AtomicCss.Binary64

/-- The number of decimal digits of a natural number. -/
def digitCount (n : Nat) : Nat := (Nat.toDigits 10 n).length

/-- The least `k` with `num / den < 10 ^ k`. -/
def decimalScale (num den : Nat) : Int :=
  if den ≤ num then digitCount (num / den) else 1 - digitCount ((den - 1) / num)

/-- The fraction `d * 10 ^ x`. -/
def decimalRatio (d : Nat) (x : Int) : Nat × Nat :=
  if 0 ≤ x then (d * Nat.pow 10 x.toNat, 1) else (d, Nat.pow 10 (-x).toNat)

/-- Whether `d * 10 ^ x` reads back as the number `m * 2 ^ e`. -/
def readsBack (m : Nat) (e : Int) (d : Nat) (x : Int) : Bool :=
  let (num, den) := decimalRatio d x
  ofRatio false num den == .finite false m e

/-- Of the two neighbours of `m * 2 ^ e` on the grid of step `10 ^ x`, the
nearer one that reads back. -/
def onGrid (m : Nat) (e : Int) (x : Int) : Option Nat :=
  let (num, den) := ratio m e
  let (stepNum, stepDen) := decimalRatio 1 x
  let n := num * stepDen
  let d := den * stepNum
  let low := n / d
  let nearLow := 2 * (n % d) < d
  let (first, second) := if nearLow then (low, low + 1) else (low + 1, low)
  if readsBack m e first x then some first
  else if readsBack m e second x then some second
  else none

/-- Digits and exponent, where `count` more digits than `used` may be tried.
The neighbour above may be the next power of ten, which needs one digit only. -/
def searchDigits (m : Nat) (e : Int) (scale : Int) (used : Nat) : Nat → Option (Nat × Int)
  | 0 => none
  | count + 1 =>
    let x := scale - (used + 1)
    match onGrid m e x with
    | some d => some (if d = Nat.pow 10 (used + 1) then (1, scale) else (d, x))
    | none => searchDigits m e scale (used + 1) count

/-- The digits `d` and the exponent `x` of the shortest decimal `d * 10 ^ x`.
Seventeen digits always suffice. -/
def shortest (m : Nat) (e : Int) : Nat × Int :=
  let (num, den) := ratio m e
  (searchDigits m e (decimalScale num den) 0 17).getD (num / den, 0)

/-- `d * 10 ^ x` with all its places. -/
def positional (d : Nat) (x : Int) : Text :=
  let digits := Nat.toDigits 10 d
  if 0 ≤ x then digits ++ List.replicate x.toNat '0'
  else
    let places := (-x).toNat
    if places < digits.length then
      digits.take (digits.length - places) ++ '.' :: digits.drop (digits.length - places)
    else "0." ++ List.replicate (places - digits.length) '0' ++ digits

/-- The decimal text. A zero keeps its sign. -/
def toText : Binary64 → Text
  | .notANumber => "NaN"
  | .infinite negative => if negative then "-inf" else "inf"
  | .finite negative m e =>
    let sign : Text := if negative then "-" else ""
    if m = 0 then sign ++ "0"
    else
      let (d, x) := shortest m e
      sign ++ positional d x

end AtomicCss.Binary64
