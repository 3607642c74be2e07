import AtomicCss.Css.Printer
import AtomicCss.DataType.Recognition
import AtomicCss.DesignSystem
import AtomicCss.Negative
import AtomicCss.Opacity

/-! What a candidate stands for in a design system. A candidate is offered to
the utilities under its root, one after the other, until one of them takes it
or refuses it for all. -/
namespace AtomicCss

/-- The answer of a utility to a candidate. -/
inductive Outcome where
  | matched (nodes : List Css.Node)
  /-- The next utility may take the candidate. -/
  | retry
  /-- No other utility may take it. -/
  | stop
  deriving DecidableEq, Repr

namespace Outcome

def nodes? : Outcome → Option (List Css.Node)
  | matched nodes => some nodes
  | _ => none

/-- The first answer that leaves no choice to the ones after it. -/
def firstOf {α : Type} (offer : α → Outcome) : List α → Outcome
  | [] => retry
  | x :: xs =>
    match offer x with
    | retry => firstOf offer xs
    | decided => decided

end Outcome

/-- The colours that every colour utility knows by name. -/
def colorKeyword? (key : Text) : Option Text :=
  if key = "inherit" then some "inherit"
  else if key = "transparent" then some "transparent"
  else if key = "current" then some "currentColor"
  else none

/-- A value that a utility has accepted. -/
structure Accepted where
  value : Text
  /-- The type of a value between brackets. -/
  type : Option DataType
  /-- The modifier that is still to be resolved. -/
  modifier : Option Argument
  deriving Repr

namespace FunctionalUtility

/-- The value for a name or, without a name, the default: from the utility's
own table, the colour keywords, the theme and the bare values, in this order. -/
def namedValue (u : FunctionalUtility) (theme : Theme) (key : Option Text) : Option Text :=
  u.lookup (key.getD Theme.defaultKey) <|>
    (if u.isColor then key.bind colorKeyword? else none) <|>
    theme.resolve key u.themeKeys <|>
    key.bind u.bareValue

/-- The type of a value between brackets, from its hint or from its text. A
hint that the utility does not list is of no account where any value will do. -/
def arbitraryType (u : FunctionalUtility) (value : Text) (hint : Option Text) :
    Option DataType :=
  match hint with
  | none => DataType.infer value u.types
  | some hint =>
    match (DataType.ofName? hint).filter u.accepts with
    | some type => some type
    | none => if u.acceptsOnlyAny then some .any else none

/-- The value of a name and a modifier that make a fraction together. -/
def fractionValue (u : FunctionalUtility) (name : Text) (modifier : Option Argument) :
    Option Text :=
  match modifier with
  | some (.named denominator) => u.fraction name denominator
  | _ => none

def accept (u : FunctionalUtility) (theme : Theme) (value : Option UtilityValue)
    (modifier : Option Argument) : Option Accepted :=
  match value with
  | none => (u.namedValue theme none).map fun v => { value := v, type := none, modifier }
  | some (.named name) =>
    match u.fractionValue name modifier with
    | some v => some { value := v, type := none, modifier := none }
    | none =>
      (u.namedValue theme (some name)).map fun v => { value := v, type := none, modifier }
  | some (.arbitrary text hint) =>
    (u.arbitraryType text hint).map fun type =>
      { value := text, type := some type, modifier }

/-- The policy for the modifiers of a value, which may be a colour. -/
def policyFor (u : FunctionalUtility) (isColor : Bool) : ModifierPolicy :=
  u.modifiers.getD (if isColor then .lookup [] else .none)

/-- The text that a modifier stands for. A number is an opacity of a colour. -/
def modifierText (u : FunctionalUtility) (theme : Theme) (isColor : Bool) (modifier : Argument) :
    Option Text :=
  match u.policyFor isColor, modifier with
  | .none, _ => none
  | .any, modifier => some modifier.text
  | .lookup _, .arbitrary text => some text
  | .lookup table, .named name =>
    table.lookup name <|> if isColor && isNumeral name then some (name ++ "%") else none
  | .theme _, .arbitrary text => some text
  | .theme namespaces, .named name =>
    theme.resolve (some name) namespaces <|> u.bareModifier name

/-- Whether an accepted value is a colour: by its type, or by the utility's. -/
def givesColor (u : FunctionalUtility) (a : Accepted) : Bool :=
  match a.type with
  | some type => type == .color
  | none => u.isColor

/-- The nodes for a value and a resolved modifier. -/
def produce (u : FunctionalUtility) (isColor negative : Bool) (value : Text)
    (modifier : Option Text) : Outcome :=
  let value :=
    match modifier with
    | some alpha => if isColor then withOpacity value alpha else value
    | none => value
  match u.emit (if negative then negateValue value else value) modifier with
  | [] => .retry
  | nodes => .matched nodes

/-- The answer to a value, a modifier and a sign. A modifier that does not fit
a value between brackets is refused for all utilities. -/
def answer (u : FunctionalUtility) (theme : Theme) (value : Option UtilityValue)
    (modifier : Option Argument) (negative : Bool) : Outcome :=
  if negative && !u.supportsNegative then .retry
  else
    match u.accept theme value modifier with
    | none => .retry
    | some a =>
      let isColor := u.givesColor a
      match a.modifier with
      | none => u.produce isColor negative a.value none
      | some m =>
        match u.modifierText theme isColor m with
        | some text => u.produce isColor negative a.value (some text)
        | none => if a.type.isSome then .stop else .retry

/-- Whether the value has one of the utility's types other than `any`. -/
def acceptsConcretely (u : FunctionalUtility) (value : Text) : Bool :=
  (DataType.infer value (u.types.filter (· != .any))).isSome

end FunctionalUtility

/-- The order in which utilities are tried. For a value between brackets
without a hint, those that know its type come before those that take any. -/
def offerOrder (value : Option UtilityValue) (us : List FunctionalUtility) :
    List FunctionalUtility :=
  match value with
  | some (.arbitrary text none) =>
    us.filter (·.acceptsConcretely text) ++ us.filter fun u => !u.acceptsConcretely text
  | _ => us

/-- The declaration that a class in square brackets stands for. Its modifier
is an opacity, which is a number unless it is in brackets too. -/
def propertyNodes (name value : Text) (modifier : Option Argument) : Option (List Css.Node) :=
  match modifier with
  | none => some [Css.declare name value]
  | some (.arbitrary alpha) => some [Css.declare name (withOpacity value alpha)]
  | some (.named alpha) =>
    if isNumeral alpha then some [Css.declare name (withOpacity value (alpha ++ "%"))] else none

namespace DesignSystem

/-- Offers a candidate to all utilities under one root. -/
def offer (system : DesignSystem) (root : Text) (value : Option UtilityValue)
    (modifier : Option Argument) (negative : Bool) : Outcome :=
  Outcome.firstOf (fun u => u.answer system.theme value modifier negative)
    (offerOrder value (system.utilities.functionals root))

/-- The static utility under a name, with a named modifier as part of the name. -/
def staticNodes (system : DesignSystem) (name : Text) (modifier : Option Argument)
    (negative : Bool) : Option (List Css.Node) :=
  if negative then none
  else
    match modifier with
    | none => (system.utilities.statics name).head?
    | some (.named m) => (system.utilities.statics (name ++ '/' :: m)).head?
    | some (.arbitrary _) => none

/-- The utilities for a named value. The root may end at any dash, the longest
root first. -/
def namedNodes (system : DesignSystem) (full : Text) (modifier : Option Argument)
    (negative : Bool) : Option (List Css.Node) :=
  (Outcome.firstOf (fun (cut : Text × Text) =>
      system.offer cut.1 (some (.named cut.2)) modifier negative)
    (Text.splits '-' full)).nodes?

def resolveTerm (system : DesignSystem) : UtilityTerm → Option (List Css.Node)
  | .static root negative =>
    system.staticNodes root none negative <|> (system.offer root none none negative).nodes?
  | .functional root (some (.named value)) modifier negative =>
    let full := root ++ '-' :: value
    system.staticNodes full modifier negative <|> system.namedNodes full modifier negative
  | .functional root value modifier negative =>
    (system.offer root value modifier negative).nodes?
  | .property name value modifier => propertyNodes name value modifier

/-- The nodes of a candidate without its variants. -/
def resolve (system : DesignSystem) (c : Candidate) : Option (List Css.Node) :=
  (system.resolveTerm c.base).map fun nodes =>
    if c.important then Css.markImportant nodes else nodes

/-- The rules for a class text. -/
def compile (system : DesignSystem) (t : Text) : Option (List Css.Node) := do
  let c ← system.parseCandidate t
  let nodes ← system.resolve c
  system.variants.apply system.theme c.variants t nodes

/-- The style sheet text for each class text that stands for something. -/
def stylesheets (system : DesignSystem) (ts : List Text) : List (Option Text) :=
  ts.map fun t => (system.compile t).map fun nodes =>
    Text.joinWith "\n" (nodes.map Css.prettyAlone)

end DesignSystem
end AtomicCss
