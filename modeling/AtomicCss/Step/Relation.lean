import AtomicCss.Css.Identifier
import AtomicCss.Step
import AtomicCss.Variant

/-! Variants that are made of the steps of another variant: its negation, and
its transfer to a marked ancestor or sibling. -/
namespace AtomicCss.Step

/-- The same steps with `wrap` applied to their selector, which comes last.
It is `none` for steps without a selector. -/
def wrapSelector (wrap : Text → Text) (steps : List Step) : Option (List Step) :=
  if steps.any isSelector then
    let c := Composition.ofSteps steps
    some (c.atRules.map .atRule ++ [.selector (wrap c.selector)])
  else none

/-- The opposite of the steps. A selector is negated if there is one, or else
the only condition, which must be of `media` or `supports`. -/
def negate (steps : List Step) : Option (List Step) :=
  let c := Composition.ofSteps steps
  if c.selector ≠ "&" then
    some [.selector ("&:not(" ++ Text.replace '&' "*" c.selector ++ ")")]
  else
    match c.atRules with
    | [header] =>
      if header.name = "media" then
        some [.atRule { name := "media", params := "not all and " ++ header.params }]
      else if header.name = "supports" then
        some [.atRule { name := "supports", params := "not " ++ header.params }]
      else none
    | _ => none

/-- The selector of an element that is marked by a class, such as `group`, or
by the class together with a name, such as `group/menu`. -/
def marker (class_ : Text) (modifier : Option Argument) : Text :=
  match modifier with
  | some m => ":where(." ++ Css.escapeClass (class_ ++ '/' :: m.text) ++ ")"
  | none => ":where(." ++ class_ ++ ")"

/-- The condition that the steps hold of the marked element, which stands to
this one as the combinator says. -/
def relation (class_ combinator : Text) (steps : List Step) (modifier : Option Argument) :
    Option (List Step) :=
  wrapSelector (fun selector =>
    "&:is(" ++ Text.replace '&' (marker class_ modifier) selector ++ combinator ++ "*)") steps

/-- The same for a selector between brackets. Where it does not say where the
marked element stands, it is a condition on that element. -/
def relationArbitrary (class_ combinator : Text) (value modifier : Option Argument) :
    Option (List Step) :=
  match value with
  | some (.arbitrary t) =>
    let mark := marker class_ modifier
    let target := if t.contains '&' then Text.replace '&' mark t else mark ++ t
    some [.selector ("&:is(" ++ target ++ combinator ++ "*)")]
  | _ => none

end AtomicCss.Step
