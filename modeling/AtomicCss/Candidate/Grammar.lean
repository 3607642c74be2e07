import AtomicCss.Candidate
import AtomicCss.Variant.Grammar

/-! The written form of candidates: which texts are candidates, and the
canonical text of each. Reading looks at the text alone; a named value is
what follows the last dash, so that `bg-red-500` is the value `500` of
`bg-red` until a design system knows better. -/
namespace AtomicCss

namespace UtilityTerm

def isRoot : Text → Bool
  | [] => false
  | c :: rest => c.isLower && rest.all fun c => c.isAlphanum || c == '-' || c == '_' || c == '.'

def isPropertyName : Text → Bool
  | [] => false
  | c :: rest => (c == '-' || c.isLower) && rest.all fun c => c.isAlphanum || c == '-' || c == '_'

/-- Reads `[name:value]`. -/
def property? (t : Text) (modifier : Option Argument) : Option UtilityTerm := do
  let inner ← Argument.bracketed? t
  let (name, value) ← Text.splitFirst ':' inner
  if isPropertyName name then
    (Arbitrary.decodeTrimmed value).map fun v => .property name v modifier
  else none

/-- Reads a value between brackets and its type hint. -/
def arbitraryValue? (t : Text) : Option UtilityValue := do
  let inner ← Arbitrary.decodeTrimmed t
  let (hint, rest) := Arbitrary.splitHint inner
  let value := Text.trim rest
  if value.isEmpty then none else some (.arbitrary value hint)

/-- Reads a utility without its sign and its modifier, which are given. -/
def ofMain? (t : Text) (modifier : Option Argument) (negative : Bool) : Option UtilityTerm :=
  if t.getLast? = some ']' then do
    let (before, inner) ← Text.splitClosing? t
    let root ← Text.stripEnd? "-" before
    if isRoot root then
      (arbitraryValue? inner).map fun v => .functional root (some v) modifier negative
    else none
  else
    match Text.splitLast '-' t with
    | some (root, value) =>
      if isRoot root ∧ isNamedValue value then
        some (.functional root (some (.named value)) modifier negative)
      else none
    | none =>
      if !isRoot t then none
      else if modifier.isSome then some (.functional t none modifier negative)
      else some (.static t negative)

/-- Reads a candidate without variants and mark of importance. -/
def parse? (t : Text) : Option UtilityTerm := do
  let (main, modifier) ← splitModifier? t
  match main with
  | '[' :: _ => property? main modifier
  | '-' :: rest => ofMain? rest modifier true
  | _ => ofMain? main modifier false

/-- The canonical text. -/
def print (u : UtilityTerm) : Text :=
  (if u.negative then "-" else "") ++
    match u with
    | .static root _ => root
    | .functional root value modifier _ =>
      root ++
        (match value with
          | none => []
          | some (.named t) => '-' :: t
          | some (.arbitrary t (some hint)) => "-[" ++ hint ++ ":" ++ Arbitrary.print t ++ "]"
          | some (.arbitrary t none) => "-[" ++ Arbitrary.printUnhinted t ++ "]") ++
        Argument.printModifier modifier
    | .property name value modifier =>
      "[" ++ name ++ ":" ++ Arbitrary.print value ++ "]" ++ Argument.printModifier modifier

end UtilityTerm

namespace Candidate

/-- Takes the mark of importance off either end. Both ends at once are refused. -/
def splitImportant? (t : Text) : Option (Text × Bool) :=
  match Text.stripStart? "!" t, Text.stripEnd? "!" t with
  | some _, some _ => none
  | some rest, none => some (rest, true)
  | none, some rest => some (rest, true)
  | none, none => some (t, false)

/-- Takes the class prefix, if there is one, off the segments before the last. -/
def dropLead? (lead : Option Text) (segments : List Text) : Option (List Text) :=
  match lead with
  | none | some [] => some segments
  | some p =>
    match segments with
    | s :: rest => if s = p then some rest else none
    | [] => none

/-- Reads a class text. With a class prefix `lead`, only classes that begin
with it and a colon are read. -/
def parse? (lead : Option Text) (t : Text) : Option Candidate :=
  if t.isEmpty || !Text.balanced t then none
  else do
    let segments := Text.segment ':' t
    let last ← segments.getLast?
    let front ← dropLead? lead segments.dropLast
    let (text, important) ← splitImportant? last
    let variants ← front.mapM Variant.parse?
    let base ← UtilityTerm.parse? text
    some { base, variants, important }

/-- The canonical class text. -/
def print (lead : Option Text) (c : Candidate) : Text :=
  let front :=
    match lead with
    | none | some [] => []
    | some p => [p]
  Text.joinWith ":"
    (front ++ c.variants.map Variant.print ++
      [c.base.print ++ if c.important then "!" else ""])

end Candidate
end AtomicCss
