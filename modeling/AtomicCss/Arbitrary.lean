import AtomicCss.Arbitrary.Math

/-! Text between square brackets. A class holds no spaces, so inside brackets
an underscore is written for a space and `\_` for an underscore; within
`url(...)` underscores stand for themselves. Reading also puts the spaces
around the operators of mathematical functions. -/
namespace AtomicCss.Arbitrary

/-- What the reader of bracketed text keeps in mind. -/
structure Decoding where
  quote : Option Char
  /-- The number of open parentheses. -/
  depth : Nat
  /-- The depth of the innermost `url(...)` at hand. -/
  url : Option Nat
  deriving DecidableEq, Repr

namespace Decoding

def start : Decoding := { quote := none, depth := 0, url := none }

/-- Whether the text begins with `url(` in any mix of upper and lower case. -/
def opensUrl (t : Text) : Bool := Text.lower (t.take 4) == "url("

/-- The state after the unescaped character `c` with `rest` behind it. A `url`
is recognised at its first letter, three characters before its parenthesis. -/
def next (s : Decoding) (c : Char) (rest : Text) : Decoding :=
  match s.quote with
  | some q => if c = q then { s with quote := none } else s
  | none =>
    if c = '\'' ∨ c = '"' then { s with quote := some c }
    else if c = '(' then { s with depth := s.depth + 1 }
    else if c = ')' then
      { s with depth := s.depth - 1, url := if s.url = some s.depth then none else s.url }
    else if opensUrl (c :: rest) then { s with url := some (s.depth + 1) }
    else s

end Decoding

/-- The text with underscores read as spaces, from state `s` on. Any escape but
`\_` stays as it is. -/
def unescape (s : Decoding) : Text → Text
  | [] => []
  | c :: rest =>
    if c = '\\' then
      match rest with
      | [] => ['\\']
      | '_' :: rest => '_' :: unescape s rest
      | d :: rest => '\\' :: d :: unescape s rest
    else
      let next := s.next c rest
      (if c = '_' ∧ next.url = none then ' ' else c) :: unescape next rest

/-- Reads the text between brackets. -/
def decode (t : Text) : Text := spaceOperators (unescape .start t)

/-- The trimmed contents of brackets, unless they are blank. -/
def decodeTrimmed (t : Text) : Option Text :=
  let inner := Text.trim (decode t)
  if inner.isEmpty then none else some inner

/-- Writes a text so that it may stand between brackets. -/
def encode (t : Text) : Text := Text.replace ' ' "_" (Text.replace '_' "\\_" t)

/-- Writes a text in its canonical spacing. -/
def print (t : Text) : Text := encode (Value.compactText t)

/-- Splits off a leading type hint: a lower-case letter, more letters or
dashes, and a colon. -/
def splitHint (t : Text) : Option Text × Text :=
  let isHintChar (c : Char) : Bool := c.isLower || c == '-'
  match t.takeWhile isHintChar, t.dropWhile isHintChar with
  | c :: hint, ':' :: rest => if c = '-' then (none, t) else (some (c :: hint), rest)
  | _, _ => (none, t)

/-- Writes a value that has no type hint. The canonical spacing is given up
where it would make the value begin with something that reads as a hint. -/
def printUnhinted (t : Text) : Text :=
  let compact := Value.compactText t
  if (splitHint compact).1.isSome then encode (Text.trim t) else encode compact

end AtomicCss.Arbitrary
