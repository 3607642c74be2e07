import AtomicCss.Number.Numeral

/-! Values with the opposite sign. -/
namespace AtomicCss

/-- What stands between the parentheses of a text that begins with `calc(` and
ends with `)`. -/
def calcBody? (t : Text) : Option Text := (Text.stripStart? "calc(" t).bind (Text.stripEnd? ")")

/-- A last factor without a minus sign, and the text in front of it. -/
def lastFactor? (t : Text) : Option (Text × Text) :=
  match Text.splitLastText " * " t with
  | some (lhs, factor) =>
    if isNumeral factor && factor.head? != some '-' then some (lhs, factor) else none
  | none => none

/-- The negated value. A number changes its sign, a product the sign of its
last factor, and anything else is multiplied by minus one. -/
def negateValue (t : Text) : Text :=
  if isNumeral t then
    match t with
    | '-' :: rest => rest
    | t => '-' :: t
  else
    match (calcBody? t).bind lastFactor? with
    | some (lhs, factor) => "calc(" ++ lhs ++ " * -" ++ factor ++ ")"
    | none => "calc(" ++ t ++ " * -1)"

end AtomicCss
