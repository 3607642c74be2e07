import AtomicCss.Number.Binary64
import AtomicCss.Utility

/-! The utilities that every design system has unless it starts from nothing. -/
namespace AtomicCss.Standard

open Css (declare)

/-- The name, the property and the value of each utility of one declaration. -/
def keywordUtilities : List (Text × Text × Text) :=
  [("block", "display", "block"),
   ("inline", "display", "inline"),
   ("inline-block", "display", "inline-block"),
   ("flex", "display", "flex"),
   ("inline-flex", "display", "inline-flex"),
   ("grid", "display", "grid"),
   ("contents", "display", "contents"),
   ("hidden", "display", "none"),
   ("static", "position", "static"),
   ("relative", "position", "relative"),
   ("absolute", "position", "absolute"),
   ("fixed", "position", "fixed"),
   ("sticky", "position", "sticky"),
   ("flex-row", "flex-direction", "row"),
   ("flex-col", "flex-direction", "column"),
   ("items-center", "align-items", "center"),
   ("justify-center", "justify-content", "center"),
   ("underline", "text-decoration-line", "underline"),
   ("line-through", "text-decoration-line", "line-through"),
   ("no-underline", "text-decoration-line", "none"),
   ("italic", "font-style", "italic"),
   ("not-italic", "font-style", "normal")]

/-- A multiple of the spacing unit, in steps of a quarter and without a sign. -/
def spacingMultiple (t : Text) : Option Text :=
  if t.head? = some '+' ∨ t.head? = some '-' then none
  else
    match Numeral.ofText? t with
    | none => none
    | some n =>
      let number := Binary64.ofNumeral n
      if number.isFinite && (number.times 4).isWhole then
        some ("calc(var(--spacing) * " ++ t ++ ")")
      else none

/-- A part of the whole, as in `1/2`. -/
def percentageFraction (numerator denominator : Text) : Option Text :=
  if Text.isDigits numerator ∧ Text.isDigits denominator ∧ denominator ≠ "0" then
    some ("calc(" ++ numerator ++ "/" ++ denominator ++ " * 100%)")
  else none

/-- Digits with a text around them. -/
def integer (image : Text → Text) (t : Text) : Option Text :=
  if Text.isDigits t then some (image t) else none

/-- The same value for each of the properties. -/
def declareAll (properties : List Text) (value : Text) (_ : Option Text) : List Css.Node :=
  properties.map fun property => declare property value

def declareOne (property : Text) : Text → Option Text → List Css.Node := declareAll [property]

def colorUtility (property : Text) (themeKeys : List Text) : FunctionalUtility :=
  { emit := declareOne property, types := [.color], themeKeys }

/-- A utility that sets the properties to a multiple of the spacing unit. -/
def spacingUtility (properties : List Text) : FunctionalUtility :=
  { emit := declareAll properties
    types := [.length, .percentage]
    values := [("px", "1px"), ("auto", "auto")]
    bareValue := spacingMultiple }

def paddingUtilities : List (Text × FunctionalUtility) :=
  [("p", spacingUtility ["padding"]),
   ("px", spacingUtility ["padding-inline"]),
   ("py", spacingUtility ["padding-block"]),
   ("pt", spacingUtility ["padding-top"]),
   ("pr", spacingUtility ["padding-right"]),
   ("pb", spacingUtility ["padding-bottom"]),
   ("pl", spacingUtility ["padding-left"])]

def negatable (u : FunctionalUtility) : FunctionalUtility := { u with supportsNegative := true }

def divisible (u : FunctionalUtility) : FunctionalUtility :=
  { u with fraction := percentageFraction }

def marginUtilities : List (Text × FunctionalUtility) :=
  [("m", negatable (spacingUtility ["margin"])),
   ("mx", negatable (spacingUtility ["margin-inline"])),
   ("my", negatable (spacingUtility ["margin-block"])),
   ("mt", negatable (spacingUtility ["margin-top"])),
   ("mr", negatable (spacingUtility ["margin-right"])),
   ("mb", negatable (spacingUtility ["margin-bottom"])),
   ("ml", negatable (spacingUtility ["margin-left"]))]

def insetUtilities : List (Text × FunctionalUtility) :=
  [("inset", divisible (negatable (spacingUtility ["inset"]))),
   ("top", divisible (negatable (spacingUtility ["top"]))),
   ("right", divisible (negatable (spacingUtility ["right"]))),
   ("bottom", divisible (negatable (spacingUtility ["bottom"]))),
   ("left", divisible (negatable (spacingUtility ["left"])))]

/-- A width or a height, with the name of the whole screen. -/
def extentUtility (property screen : Text) : FunctionalUtility :=
  { emit := declareOne property
    types := [.length, .percentage]
    values :=
      [("auto", "auto"), ("px", "1px"), ("full", "100%"), ("screen", screen),
       ("min", "min-content"), ("max", "max-content"), ("fit", "fit-content")]
    bareValue := spacingMultiple
    fraction := percentageFraction }

def sizeUtilities : List (Text × FunctionalUtility) :=
  [("gap", spacingUtility ["gap"]),
   ("size", divisible (spacingUtility ["width", "height"])),
   ("w", extentUtility "width" "100vw"),
   ("h", extentUtility "height" "100vh")]

def fontSizeUtility : FunctionalUtility :=
  { emit := fun size lineHeight =>
      declare "font-size" size ::
        (match lineHeight with
          | some h => [declare "line-height" h]
          | none => [])
    types := [.length, .percentage]
    themeKeys := ["--text"]
    modifiers := some (.theme ["--leading"])
    bareModifier := spacingMultiple }

def backgroundImageUtility : FunctionalUtility :=
  { emit := declareOne "background-image"
    types := [.image, .url]
    values := [("none", "none")] }

def colorUtilities : List (Text × FunctionalUtility) :=
  [("bg", colorUtility "background-color" ["--background-color", "--color"]),
   ("bg", backgroundImageUtility),
   ("text", colorUtility "color" ["--text-color", "--color"]),
   ("text", fontSizeUtility),
   ("accent", colorUtility "accent-color" ["--color"]),
   ("caret", colorUtility "caret-color" ["--color"]),
   ("fill", colorUtility "fill" ["--color"]),
   ("stroke", colorUtility "stroke" ["--color"]),
   ("decoration", colorUtility "text-decoration-color" ["--color"]),
   ("outline", colorUtility "outline-color" ["--color"])]

def borderWidthUtility : FunctionalUtility :=
  { emit := fun width _ =>
      [declare "border-style" "var(--tw-border-style)", declare "border-width" width]
    types := [.length, .lineWidth]
    values := [("DEFAULT", "1px")]
    bareValue := integer fun t => t ++ "px" }

def surfaceUtilities : List (Text × FunctionalUtility) :=
  [("opacity",
    { emit := declareOne "opacity"
      types := [.percentage, .number]
      bareValue := integer fun t => t ++ "%" }),
   ("rounded",
    { emit := declareOne "border-radius"
      types := [.length, .percentage]
      values := [("none", "0")]
      themeKeys := ["--radius"] }),
   ("border", borderWidthUtility),
   ("border", colorUtility "border-color" ["--border-color", "--color"]),
   ("aspect",
    { emit := declareOne "aspect-ratio"
      types := [.ratio]
      values := [("auto", "auto"), ("square", "1 / 1")]
      themeKeys := ["--aspect"]
      fraction := fun a b =>
        if Text.isDigits a && Text.isDigits b then some (a ++ "/" ++ b) else none })]

/-- The number of a grid line. -/
def gridLineUtility (property : Text) : FunctionalUtility :=
  { emit := declareOne property
    types := [.integer]
    values := [("auto", "auto")]
    bareValue := integer fun t => t }

/-- The number of grid tracks that an element covers. -/
def gridSpanUtility (property : Text) : FunctionalUtility :=
  { emit := declareOne property
    types := [.integer]
    values := [("full", "1 / -1")]
    bareValue := integer fun t => "span " ++ t ++ " / span " ++ t }

/-- The number of grid tracks of equal size. -/
def gridTracksUtility (property : Text) : FunctionalUtility :=
  { emit := declareOne property
    values := [("none", "none"), ("subgrid", "subgrid")]
    bareValue := integer fun t => "repeat(" ++ t ++ ", minmax(0, 1fr))" }

def gridUtilities : List (Text × FunctionalUtility) :=
  [("col-start", gridLineUtility "grid-column-start"),
   ("col-end", gridLineUtility "grid-column-end"),
   ("row-start", gridLineUtility "grid-row-start"),
   ("row-end", gridLineUtility "grid-row-end"),
   ("col-span", gridSpanUtility "grid-column"),
   ("row-span", gridSpanUtility "grid-row"),
   ("grid-cols", gridTracksUtility "grid-template-columns"),
   ("grid-rows", gridTracksUtility "grid-template-rows")]

/-- A percentage from 50 to 200; a plus sign in front is allowed. -/
def stretchPercentage (t : Text) : Option Text :=
  match Text.stripEnd? "%" t with
  | none => none
  | some number =>
    let digits := (Text.stripStart? "+" number).getD number
    let percent := Numeral.natOfDigits digits
    if Text.isDigits digits ∧ 50 ≤ percent ∧ percent ≤ 200 then some t else none

def stretchKeywords : List Text :=
  ["ultra-condensed", "extra-condensed", "condensed", "semi-condensed", "normal",
   "semi-expanded", "expanded", "extra-expanded", "ultra-expanded"]

def typeUtilities : List (Text × FunctionalUtility) :=
  [("flex",
    { emit := declareOne "flex"
      types := [.number]
      values := [("auto", "1 1 auto"), ("initial", "0 1 auto"), ("none", "none")]
      bareValue := integer fun t => t }),
   ("font-stretch",
    { emit := declareOne "font-stretch"
      types := [.percentage]
      values := stretchKeywords.map fun t => (t, t)
      bareValue := stretchPercentage }),
   ("font",
    { emit := declareOne "font-family"
      types := [.familyName]
      themeKeys := ["--font"] }),
   ("font",
    { emit := declareOne "font-weight"
      types := [.number]
      themeKeys := ["--font-weight"] }),
   ("z",
    { emit := declareOne "z-index"
      types := [.integer]
      supportsNegative := true
      values := [("auto", "auto")]
      bareValue := integer fun t => t }),
   ("shadow",
    { emit := declareOne "box-shadow"
      values := [("none", "0 0 #0000")]
      themeKeys := ["--shadow"] }),
   ("leading",
    { emit := declareOne "line-height"
      types := [.length, .number, .percentage]
      values := [("none", "1")]
      themeKeys := ["--leading"]
      bareValue := spacingMultiple }),
   ("tracking",
    { emit := declareOne "letter-spacing"
      types := [.length]
      supportsNegative := true
      themeKeys := ["--tracking"] })]

/-- One line of text that ends in an ellipsis where it is cut off. -/
def truncateUtility : Text × List Css.Node :=
  ("truncate",
   [declare "overflow" "hidden", declare "text-overflow" "ellipsis",
    declare "white-space" "nowrap"])

def functionalUtilities : List (Text × FunctionalUtility) :=
  colorUtilities ++ paddingUtilities ++ marginUtilities ++ insetUtilities ++ sizeUtilities ++
    surfaceUtilities ++ gridUtilities ++ typeUtilities

def staticUtilities : List (Text × List Css.Node) :=
  keywordUtilities.map (fun (name, property, value) => (name, [declare property value])) ++
    [truncateUtility]

def utilities : Utilities :=
  { records :=
      staticUtilities.map (fun (name, nodes) => (name, .static nodes)) ++
        functionalUtilities.map fun (name, u) => (name, .functional u) }

end AtomicCss.Standard
