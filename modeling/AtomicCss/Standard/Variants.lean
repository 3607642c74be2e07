import AtomicCss.Step.Relation
import AtomicCss.Variants

/-! The variants that every design system has unless it starts from nothing. -/
namespace AtomicCss.Standard

/-- States that come from what the user does. -/
def interactionVariants : List (Text × Text) :=
  [("focus", "&:focus"),
   ("focus-within", "&:focus-within"),
   ("focus-visible", "&:focus-visible"),
   ("active", "&:active"),
   ("visited", "&:visited"),
   ("target", "&:target")]

/-- Places among the siblings. -/
def placeVariants : List (Text × Text) :=
  [("first", "&:first-child"),
   ("last", "&:last-child"),
   ("only", "&:only-child"),
   ("odd", "&:nth-child(odd)"),
   ("even", "&:nth-child(even)"),
   ("first-of-type", "&:first-of-type"),
   ("last-of-type", "&:last-of-type"),
   ("only-of-type", "&:only-of-type"),
   ("empty", "&:empty")]

/-- States of form fields. -/
def fieldVariants : List (Text × Text) :=
  [("disabled", "&:disabled"),
   ("enabled", "&:enabled"),
   ("checked", "&:checked"),
   ("indeterminate", "&:indeterminate"),
   ("default", "&:default"),
   ("optional", "&:optional"),
   ("required", "&:required"),
   ("valid", "&:valid"),
   ("invalid", "&:invalid"),
   ("user-valid", "&:user-valid"),
   ("user-invalid", "&:user-invalid"),
   ("in-range", "&:in-range"),
   ("out-of-range", "&:out-of-range"),
   ("placeholder-shown", "&:placeholder-shown"),
   ("autofill", "&:autofill"),
   ("read-only", "&:read-only")]

/-- States and directions of content. -/
def contentVariants : List (Text × Text) :=
  [("open", "&:is([open], :popover-open, :open)"),
   ("inert", "&:is([inert], [inert] *)"),
   ("rtl", "&:where(:dir(rtl), [dir=\"rtl\"], [dir=\"rtl\"] *)"),
   ("ltr", "&:where(:dir(ltr), [dir=\"ltr\"], [dir=\"ltr\"] *)")]

/-- Parts of an element that have no element of their own. -/
def partVariants : List (Text × Text) :=
  [("before", "&::before"),
   ("after", "&::after"),
   ("first-letter", "&::first-letter"),
   ("first-line", "&::first-line"),
   ("marker", "& *::marker, &::marker"),
   ("selection", "& *::selection, &::selection"),
   ("file", "&::file-selector-button"),
   ("backdrop", "&::backdrop"),
   ("placeholder", "&::placeholder")]

/-- The variants that are one selector. -/
def selectorVariants : List (Text × Text) :=
  interactionVariants ++ placeVariants ++ fieldVariants ++ contentVariants ++ partVariants

/-- The variants that are one media query. -/
def mediaVariants : List (Text × Text) :=
  [("dark", "(prefers-color-scheme: dark)"),
   ("print", "print"),
   ("motion-safe", "(prefers-reduced-motion: no-preference)"),
   ("motion-reduce", "(prefers-reduced-motion: reduce)"),
   ("contrast-more", "(prefers-contrast: more)"),
   ("contrast-less", "(prefers-contrast: less)"),
   ("portrait", "(orientation: portrait)"),
   ("landscape", "(orientation: landscape)"),
   ("noscript", "(scripting: none)")]

/-- The variants of two steps or of an at-rule without a condition. -/
def otherVariants : List (Text × List Step) :=
  [("hover", [Step.parse "@media (hover: hover)", Step.parse "&:hover"]),
   ("starting", [Step.parse "@starting-style"])]

def statics : List (Text × List Step) :=
  otherVariants ++
    selectorVariants.map (fun (name, template) => (name, [Step.parse template])) ++
    mediaVariants.map fun (name, query) => (name, [Step.parse ("@media " ++ query)])

/-- Steps that are one selector. -/
def one (template : Text) : Option (List Step) := some [.selector template]

/-- Steps that are one at-rule. -/
def oneAtRule (name params : Text) : Option (List Step) := some [.atRule { name, params }]

/-- A data attribute that is there or has a value. -/
def data : VariantHandler
  | some value, _, _ => one ("&[data-" ++ value.text ++ "]")
  | none, _, _ => none

/-- A state of accessibility; a name stands for the value `true`. -/
def aria : VariantHandler
  | some (.named key), _, _ => one ("&[aria-" ++ key ++ "=\"true\"]")
  | some (.arbitrary condition), _, _ => one ("&[aria-" ++ condition ++ "]")
  | none, _, _ => none

/-- The condition for a feature. A property alone asks whether the property is
known; anything else gets parentheses where it has none. -/
def supportsQuery (t : Text) : Text :=
  let query := Text.trim t
  if !query.isEmpty && query.all fun c => c.isAlphanum || c == '-' then
    "(" ++ query ++ ": var(--tw))"
  else if (query.head? == some '(' && query.getLast? == some ')') ||
      List.isPrefixOf "not ".toList query || List.isPrefixOf "selector(".toList query ||
      List.isPrefixOf "font-".toList query then query
  else "(" ++ query ++ ")"

def supports : VariantHandler
  | some value, _, _ => oneAtRule "supports" (supportsQuery value.text)
  | none, _, _ => none

/-- A width: that of a breakpoint of the theme, or the one between brackets. -/
def breakpointWidth (theme : Theme) : Argument → Option Text
  | .named key => theme.resolveValue (some key) ["--breakpoint"]
  | .arbitrary width => some width

/-- A condition on the width of the page. -/
def width (comparison : Text) : VariantHandler
  | some value, _, theme =>
    (breakpointWidth theme value).bind fun w =>
      oneAtRule "media" ("(width " ++ comparison ++ " " ++ w ++ ")")
  | none, _, _ => none

/-- A place among the siblings. -/
def nth (pseudo : Text) : VariantHandler
  | some (.named n), _, _ =>
    if Text.isDigits n then one ("&:" ++ pseudo ++ "(" ++ n ++ ")") else none
  | some (.arbitrary n), _, _ => one ("&:" ++ pseudo ++ "(" ++ n ++ ")")
  | none, _, _ => none

/-- A selector between brackets with a text around it. -/
def around (before after : Text) : VariantHandler
  | some (.arbitrary selector), _, _ => one (before ++ selector ++ after)
  | _, _, _ => none

/-- The marked element of a relation stands above, or before among the siblings. -/
def ancestor : Text := " "

def sibling : Text := " ~ "

def functionals : List (Text × VariantHandler) :=
  [("data", data),
   ("aria", aria),
   ("supports", supports),
   ("min", width ">="),
   ("max", width "<"),
   ("nth", nth "nth-child"),
   ("nth-last", nth "nth-last-child"),
   ("nth-of-type", nth "nth-of-type"),
   ("nth-last-of-type", nth "nth-last-of-type"),
   ("group", fun value modifier _ => Step.relationArbitrary "group" ancestor value modifier),
   ("peer", fun value modifier _ => Step.relationArbitrary "peer" sibling value modifier),
   ("has", around "&:has(" ")"),
   ("not", around "&:not(" ")"),
   ("in", around ":where(" ") &")]

/-- The selector of the inner variant, of any element, with a text around it. -/
def aroundInner (before after : Text) : CompoundHandler := fun steps _ =>
  Step.wrapSelector (fun selector => before ++ Text.replace '&' "*" selector ++ after) steps

def compounds : List (Text × CompoundHandler) :=
  [("group", Step.relation "group" ancestor),
   ("peer", Step.relation "peer" sibling),
   ("has", aroundInner "&:has(" ")"),
   ("not", fun steps _ => Step.negate steps),
   ("in", aroundInner ":where(" ") &")]

def variants : Variants := { statics, functionals, compounds }

end AtomicCss.Standard
