import AtomicCss.Number.Shortest

/-! Colours with an opacity, given as a number or as any other text. -/
namespace AtomicCss

/-- The percentage for an opacity. A number up to one is a fraction and is
rounded to four places; a greater one is a percentage already, and a text
that is no number stays as it is. -/
def opacityPercentage (alpha : Text) : Text :=
  let alpha := Text.trim alpha
  match Numeral.ofText? alpha with
  | none => alpha
  | some n =>
    let fraction := Binary64.ofNumeral n
    if fraction.atMostOne then
      (((fraction.times 100).times 10000).round.dividedBy 10000).toText ++ "%"
    else alpha ++ "%"

/-- The colour mixed with transparency. Full opacity is the colour itself. -/
def withOpacity (color alpha : Text) : Text :=
  let percentage := opacityPercentage alpha
  if percentage = "100%" then color
  else "color-mix(in oklab, " ++ color ++ " " ++ percentage ++ ", transparent)"

end AtomicCss
