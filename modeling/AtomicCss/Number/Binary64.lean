import AtomicCss.Number.Numeral

/-! Numbers with 53 binary digits, computed exactly and then rounded to the
nearest one, ties to the even significand. Only the operations that opacities
and spacing steps need are here. -/
namespace AtomicCss

/-- `finite` stands for `significand * 2 ^ exponent` with its sign. -/
inductive Binary64 where
  | finite (negative : Bool) (significand : Nat) (exponent : Int)
  | infinite (negative : Bool)
  | notANumber
  deriving DecidableEq, Repr

namespace Binary64

/-- The least exponent, that of the numbers next to zero. -/
def minExponent : Int := -1074

/-- The exponent of the greatest finite numbers. -/
def maxExponent : Int := 971

/-- The fraction `num / den` times `2 ^ -e`, as a fraction. -/
def scaled (num den : Nat) (e : Int) : Nat × Nat :=
  if 0 ≤ e then (num, den * Nat.pow 2 e.toNat) else (num * Nat.pow 2 (-e).toNat, den)

/-- The whole number nearest to `num / den`, ties to even. -/
def nearestEven (num den : Nat) : Nat :=
  let q := num / den
  let twice := 2 * (num % den)
  if den < twice ∨ (twice = den ∧ q % 2 = 1) then q + 1 else q

/-- The exponent at which `num / den` has 53 binary digits before the point,
or the least exponent. -/
def exponentOf (num den : Nat) : Int :=
  let e : Int := (num.log2 : Int) - den.log2 - 52
  let (n, d) := scaled num den e
  let e := if n / d < Nat.pow 2 52 then e - 1 else e
  if e < minExponent then minExponent else e

/-- The number nearest to the fraction `num / den`. -/
def ofRatio (negative : Bool) (num den : Nat) : Binary64 :=
  if num = 0 then .finite negative 0 minExponent
  else
    let e := exponentOf num den
    let (n, d) := scaled num den e
    let m := nearestEven n d
    let (m, e) := if m = Nat.pow 2 53 then (Nat.pow 2 52, e + 1) else (m, e)
    if maxExponent < e then .infinite negative else .finite negative m e

/-- The fraction that a significand and an exponent denote. -/
def ratio (m : Nat) (e : Int) : Nat × Nat :=
  if 0 ≤ e then (m * Nat.pow 2 e.toNat, 1) else (m, Nat.pow 2 (-e).toNat)

/-- The number nearest to a numeral. Numerals with more than 400 places before
the point, or as many zeros after it, are out of range and need no computing. -/
def ofNumeral : Numeral → Binary64
  | .infinite negative => .infinite negative
  | .notANumber => .notANumber
  | .decimal negative digits exponent =>
    let magnitude : Int := exponent + (Nat.toDigits 10 digits).length
    if digits = 0 ∨ magnitude < -400 then .finite negative 0 minExponent
    else if 400 < magnitude then .infinite negative
    else if 0 ≤ exponent then ofRatio negative (digits * Nat.pow 10 exponent.toNat) 1
    else ofRatio negative digits (Nat.pow 10 (-exponent).toNat)

/-- The product with a natural number. -/
def times (k : Nat) : Binary64 → Binary64
  | .finite negative m e =>
    let (num, den) := ratio m e
    ofRatio negative (num * k) den
  | other => other

/-- The quotient by a natural number. -/
def dividedBy (k : Nat) : Binary64 → Binary64
  | .finite negative m e =>
    let (num, den) := ratio m e
    ofRatio negative num (den * k)
  | other => other

/-- The nearest whole number, halves away from zero. -/
def round : Binary64 → Binary64
  | .finite negative m e =>
    let (num, den) := ratio m e
    ofRatio negative ((2 * num + den) / (2 * den)) 1
  | other => other

/-- Finite and without a fractional part. -/
def isWhole : Binary64 → Bool
  | .finite _ m e => let (num, den) := ratio m e; num % den == 0
  | _ => false

def isFinite : Binary64 → Bool
  | .finite .. => true
  | _ => false

/-- At most one; false of `notANumber`. -/
def atMostOne : Binary64 → Bool
  | .finite negative m e => let (num, den) := ratio m e; negative || num ≤ den
  | .infinite negative => negative
  | .notANumber => false

end Binary64
end AtomicCss
