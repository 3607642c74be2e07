import AtomicCss.Css.Identifier
import AtomicCss.Css.Nesting
import AtomicCss.Registration
import AtomicCss.Step
import AtomicCss.Theme
import AtomicCss.Variant.Grammar

/-! The registry of variants: the steps that each stands for, and how they
apply to the nodes of a utility. -/
namespace AtomicCss

/-- The steps for a value, a modifier and a theme. -/
abbrev VariantHandler := Option Argument → Option Argument → Theme → Option (List Step)

/-- The steps for the steps of an inner variant and a modifier. -/
abbrev CompoundHandler := List Step → Option Argument → Option (List Step)

/-- Each table has the latest registration first. -/
structure Variants where
  statics : List (Text × List Step)
  functionals : List (Text × VariantHandler)
  compounds : List (Text × CompoundHandler)

namespace Variants

def empty : Variants := { statics := [], functionals := [], compounds := [] }

def registerStatic (vs : Variants) (name : Text) (templates : List Text) :
    Except RegistrationError Variants := do
  checkVariantName name
  return { vs with statics := (name, templates.map Step.parse) :: vs.statics }

def registerFunctional (vs : Variants) (name : Text) (handler : VariantHandler) :
    Except RegistrationError Variants := do
  checkVariantName name
  return { vs with functionals := (name, handler) :: vs.functionals }

def registerCompound (vs : Variants) (name : Text) (handler : CompoundHandler) :
    Except RegistrationError Variants := do
  checkVariantName name
  return { vs with compounds := (name, handler) :: vs.compounds }

def has (vs : Variants) (name : Text) : Bool :=
  (vs.statics.lookup name).isSome || (vs.functionals.lookup name).isSome ||
    (vs.compounds.lookup name).isSome

/-- The steps of a static variant, which takes no modifier. -/
def staticSteps (vs : Variants) (name : Text) (modifier : Option Argument) :
    Option (List Step) :=
  if modifier.isNone then vs.statics.lookup name else none

/-- The steps of the functional variant that is registered under `root`. -/
def functionalSteps (vs : Variants) (theme : Theme) (root : Text)
    (value modifier : Option Argument) : Option (List Step) :=
  (vs.functionals.lookup root).bind fun handler => handler value modifier theme

/-- The steps of a named value. The root may end at any dash: `aria-read-only`
may be `read-only` for `aria` or `only` for `aria-read`, the longer root first. -/
def namedSteps (vs : Variants) (theme : Theme) (full : Text) (modifier : Option Argument) :
    Option (List Step) :=
  (Text.splits '-' full).findSome? fun (root, value) =>
    vs.functionalSteps theme root (some (.named value)) modifier

/-- The steps of a variant, if it is known. -/
def steps (vs : Variants) (theme : Theme) : Variant → Option (List Step)
  | .static root => vs.statics.lookup root <|> vs.functionalSteps theme root none none
  | .functional root (some (.named value)) modifier =>
    let full := root ++ '-' :: value
    vs.staticSteps full modifier <|> vs.namedSteps theme full modifier
  | .functional root value modifier => vs.functionalSteps theme root value modifier
  | .arbitrary selector => some [Step.parse selector]
  | .compound root modifier inner =>
    vs.staticSteps (root ++ '-' :: inner.print) modifier <|>
      (vs.steps theme inner).bind fun nested =>
        (vs.compounds.lookup root).bind fun handler => handler nested modifier

/-- The steps of all variants, the outermost variant first. -/
def allSteps (vs : Variants) (theme : Theme) (variants : List Variant) : Option (List Step) :=
  (variants.mapM (vs.steps theme)).map List.flatten

/-- Puts at-rules around nodes, the first one outermost. -/
def surround (atRules : List AtRule) (nodes : List Css.Node) : List Css.Node :=
  atRules.foldr (fun header nodes => [.atRule header.name header.params nodes]) nodes

/-- The nodes as rules for a class under the given variants. -/
def apply (vs : Variants) (theme : Theme) (variants : List Variant) (class_ : Text)
    (nodes : List Css.Node) : Option (List Css.Node) :=
  (vs.allSteps theme variants).map fun steps =>
    let c := Composition.ofSteps steps
    let selector := Text.replace '&' ('.' :: Css.escapeClass class_) c.selector
    surround c.atRules (Css.flatten selector nodes)

end Variants
end AtomicCss
