import AtomicCss.Arbitrary
import AtomicCss.Text.Bracket
import AtomicCss.Variant

/-! The written form of variants: which texts are variants, and the canonical
text of each. -/
namespace AtomicCss

/-- The roots that put a variant on another element or turn it around. -/
def compoundRoots : List Text := ["group", "peer", "has", "not", "in"]

/-- Letters, digits, dots, percent signs and underscores; a dash would end the root. -/
def isNamedValue (t : Text) : Bool :=
  !t.isEmpty && t.all fun c => c.isAlphanum || c == '.' || c == '%' || c == '_'

def isNamedModifier (t : Text) : Bool :=
  !t.isEmpty && t.all fun c => c.isAlphanum || c == '.' || c == '%' || c == '_' || c == '-'

namespace Argument

/-- The contents of a text that is one pair of square brackets. -/
def bracketed? (t : Text) : Option Text :=
  match Text.splitClosing? t with
  | some ([], inner) => some inner
  | _ => none

/-- Reads what stands after the slash. -/
def modifier? (t : Text) : Option Argument :=
  if t.head? = some '[' then ((bracketed? t).bind Arbitrary.decodeTrimmed).map .arbitrary
  else if isNamedModifier t then some (.named t)
  else none

/-- The text of an optional modifier with its slash. -/
def printModifier : Option Argument → Text
  | none => []
  | some (.named t) => '/' :: t
  | some (.arbitrary t) => "/[" ++ Arbitrary.print t ++ "]"

end Argument

/-- Splits off the modifier at the only slash that is not inside brackets.
The result is `none` when there are more slashes or the modifier is malformed. -/
def splitModifier? (t : Text) : Option (Text × Option Argument) :=
  match Text.segment '/' t with
  | [main] => some (main, none)
  | [main, modifier] => (Argument.modifier? modifier).map fun m => (main, some m)
  | _ => none

namespace Variant

def isRoot : Text → Bool
  | [] => false
  | c :: rest =>
    (c.isAlphanum || c == '@') && rest.all fun c => c.isAlphanum || c == '-' || c == '_'

/-- A selector that does not say where the element stands is a condition on
the element itself, or is relative to it when it begins with a combinator. -/
def anchorSelector (t : Text) : Text :=
  if t.head? = some '@' ∨ t.contains '&' then t
  else if t.head? = some '>' ∨ t.head? = some '+' ∨ t.head? = some '~' then "& " ++ t
  else "&:is(" ++ t ++ ")"

/-- Splits `root-inner` at a compound root. Brackets in place of the inner
variant make it a functional variant, which is not split. -/
def splitCompound? (t : Text) : Option (Text × Text) :=
  compoundRoots.findSome? fun root =>
    match Text.stripStart? (root ++ ['-']) t with
    | some (c :: rest) => if c = '[' then none else some (root, c :: rest)
    | _ => none

theorem splitCompound?_length {t root inner : Text} (h : splitCompound? t = some (root, inner)) :
    inner.length < t.length := by
  obtain ⟨r, -, hr⟩ := List.exists_of_findSome?_eq_some h
  have cut : Text.stripStart? (r ++ ['-']) t = some inner := by
    split at hr
    · split at hr <;> simp_all
    · simp at hr
  unfold Text.stripStart? at cut
  split at cut
  · rename_i lead
    have := List.IsPrefix.length_le (List.isPrefixOf_iff_prefix.mp lead)
    simp only [Option.some.injEq] at cut
    subst cut
    simp at this ⊢
    omega
  · simp at cut

/-- Reads a variant without its modifier, which is given. -/
def ofMain? (t : Text) (modifier : Option Argument) : Option Variant :=
  match _h : splitCompound? t with
  | some (root, inner) => (ofMain? inner none).map fun v => .compound root modifier v
  | none =>
    if t.getLast? = some ']' then do
      let (before, inner) ← Text.splitClosing? t
      let root ← Text.stripEnd? "-" before
      if isRoot root then
        (Arbitrary.decodeTrimmed inner).map fun v =>
          .functional root (some (.arbitrary v)) modifier
      else none
    else
      match Text.splitLast '-' t with
      | some (root, value) =>
        if isRoot root ∧ isNamedValue value then
          some (.functional root (some (.named value)) modifier)
        else none
      | none =>
        if !isRoot t then none
        else if modifier.isSome then some (.functional t none modifier)
        else some (.static t)
  termination_by t.length
  decreasing_by exact splitCompound?_length _h

/-- Reads a variant. -/
def parse? (t : Text) : Option Variant :=
  if t.isEmpty then none
  else if t.head? = some '[' then do
    let inner ← Argument.bracketed? t
    let selector ← Arbitrary.decodeTrimmed inner
    some (.arbitrary (anchorSelector selector))
  else do
    let (main, modifier) ← splitModifier? t
    ofMain? main modifier

/-- The selector to write: `X` for `&:is(X)` where reading `X` gives `&:is(X)` again. -/
def shortSelector (selector : Text) : Text :=
  let short := Value.unwrapIs selector
  if short ≠ selector ∧ anchorSelector short = selector then short else selector

/-- The canonical text of a variant. -/
def print : Variant → Text
  | .static root => root
  | .arbitrary selector => "[" ++ Arbitrary.print (shortSelector selector) ++ "]"
  | .functional root value modifier =>
    root ++
      (match value with
        | none => []
        | some (.named t) => '-' :: t
        | some (.arbitrary t) => "-[" ++ Arbitrary.print t ++ "]") ++
      Argument.printModifier modifier
  | .compound root modifier inner =>
    root ++ '-' :: print inner ++ Argument.printModifier modifier

end Variant
end AtomicCss
