import AtomicCss.Text.Bracket

/-! The steps of a variant. A selector step is a template in which `&` stands
for the selector so far; an at-rule step wraps the finished rule. -/
namespace AtomicCss

/-- What stands in front of the block of an at-rule. -/
structure AtRule where
  name : Text
  params : Text
  deriving DecidableEq, Repr

inductive Step where
  | selector (template : Text)
  | atRule (header : AtRule)
  deriving DecidableEq, Repr

/-- The characters in the name of an at-rule. -/
def isAtRuleNameChar (c : Char) : Bool := c.isAlphanum || c == '-'

/-- The outcome of all steps: one selector, and the at-rules around it with
the outermost first. -/
structure Composition where
  selector : Text
  atRules : List AtRule
  deriving DecidableEq, Repr

namespace Step

/-- Reads a template: `@media print` is an at-rule, anything else a selector. -/
def parse (t : Text) : Step :=
  match Text.trim t with
  | '@' :: rest =>
    .atRule
      { name := rest.takeWhile isAtRuleNameChar
        params := Text.trim (rest.dropWhile isAtRuleNameChar) }
  | template => .selector template

def isSelector : Step → Bool
  | .selector _ => true
  | .atRule _ => false

/-- Puts a selector in the place of every `&` of a template. Both may be comma
lists: each branch of the selector goes through each branch of the template. -/
def substitute (template selector : Text) : Text :=
  Text.joinWith ", " ((Text.segment ',' selector).flatMap fun outer =>
    (Text.segment ',' template).map fun branch =>
      Text.replace '&' (Text.trim outer) (Text.trim branch))

end Step

namespace Composition

/-- The element itself, without conditions. -/
def self : Composition := { selector := "&", atRules := [] }

def add (c : Composition) : Step → Composition
  | .selector template => { c with selector := Step.substitute template c.selector }
  | .atRule header => { c with atRules := c.atRules ++ [header] }

/-- All steps, one after the other. -/
def ofSteps (steps : List Step) : Composition := steps.foldl add self

end Composition
end AtomicCss
