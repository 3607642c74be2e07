import AtomicCss.Text

/-! The words by which values are told apart: units, names of functions and
keywords. All are in lower case. -/
namespace AtomicCss.DataType

def lengthUnits : List Text :=
  ["px", "rem", "em", "ex", "ch", "cap", "ic", "lh", "rlh", "vw", "vh", "vi", "vb", "vmin",
   "vmax", "svw", "svh", "lvw", "lvh", "dvw", "dvh", "cqw", "cqh", "cqi", "cqb", "cqmin",
   "cqmax", "cm", "mm", "in", "pt"]

def angleUnits : List Text := ["deg", "rad", "grad", "turn"]

def colorFunctions : List Text :=
  ["rgb", "rgba", "hsl", "hsla", "hwb", "lab", "lch", "oklab", "oklch", "color", "color-mix",
   "light-dark"]

def imageFunctions : List Text :=
  ["url", "image", "image-set", "cross-fade", "element", "linear-gradient", "radial-gradient",
   "conic-gradient", "repeating-linear-gradient", "repeating-radial-gradient"]

/-- The functions whose result may have the type of any number, length or angle. -/
def calculations : List Text := ["calc", "min", "max", "clamp", "round"]

def positionKeywords : List Text := ["left", "right", "top", "bottom", "center"]

def lineWidthKeywords : List Text := ["thin", "medium", "thick"]

def colorKeywords : List Text := List.map String.toList
  ["transparent", "currentcolor", "aliceblue", "antiquewhite", "aqua", "aquamarine", "azure",
   "beige", "bisque", "black", "blanchedalmond", "blue", "blueviolet", "brown", "burlywood",
   "cadetblue", "chartreuse", "chocolate", "coral", "cornflowerblue", "cornsilk", "crimson",
   "cyan", "darkblue", "darkcyan", "darkgoldenrod", "darkgray", "darkgreen", "darkgrey",
   "darkkhaki", "darkmagenta", "darkolivegreen", "darkorange", "darkorchid", "darkred",
   "darksalmon", "darkseagreen", "darkslateblue", "darkslategray", "darkslategrey",
   "darkturquoise", "darkviolet", "deeppink", "deepskyblue", "dimgray", "dimgrey",
   "dodgerblue", "firebrick", "floralwhite", "forestgreen", "fuchsia", "gainsboro",
   "ghostwhite", "gold", "goldenrod", "gray", "green", "greenyellow", "grey", "honeydew",
   "hotpink", "indianred", "indigo", "ivory", "khaki", "lavender", "lavenderblush",
   "lawngreen", "lemonchiffon", "lightblue", "lightcoral", "lightcyan",
   "lightgoldenrodyellow", "lightgray", "lightgreen", "lightgrey", "lightpink",
   "lightsalmon", "lightseagreen", "lightskyblue", "lightslategray", "lightslategrey",
   "lightsteelblue", "lightyellow", "lime", "limegreen", "linen", "magenta", "maroon",
   "mediumaquamarine", "mediumblue", "mediumorchid", "mediumpurple", "mediumseagreen",
   "mediumslateblue", "mediumspringgreen", "mediumturquoise", "mediumvioletred",
   "midnightblue", "mintcream", "mistyrose", "moccasin", "navajowhite", "navy", "oldlace",
   "olive", "olivedrab", "orange", "orangered", "orchid", "palegoldenrod", "palegreen",
   "paleturquoise", "palevioletred", "papayawhip", "peachpuff", "peru", "pink", "plum",
   "powderblue", "purple", "rebeccapurple", "red", "rosybrown", "royalblue", "saddlebrown",
   "salmon", "sandybrown", "seagreen", "seashell", "sienna", "silver", "skyblue",
   "slateblue", "slategray", "slategrey", "snow", "springgreen", "steelblue", "tan", "teal",
   "thistle", "tomato", "turquoise", "violet", "wheat", "white", "whitesmoke", "yellow",
   "yellowgreen"]

end AtomicCss.DataType
