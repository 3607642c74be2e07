import AtomicCss.Theme

/-! The theme that a design system has unless it is given another one. -/
namespace AtomicCss.Theme

/-- The tokens of a namespace from their keys and values. -/
def tokens (ns : Text) (entries : List (Text × Text)) : List (Text × Text) :=
  entries.map fun (key, value) => (ns ++ '-' :: key, value)

/-- The token that is named like its namespace. -/
def token (name value : Text) : List (Text × Text) := [(name, value)]

/-- The shades of a colour from the lightest to the darkest. -/
def shades (family : Text) (values : List Text) : List (Text × Text) :=
  tokens ("--color-" ++ family)
    (List.zip ["50", "100", "200", "300", "400", "500", "600", "700", "800", "900", "950"] values)

def fontTokens : List (Text × Text) :=
  tokens "--font"
    [("sans", "ui-sans-serif, system-ui, sans-serif, \"Apple Color Emoji\", \"Segoe UI Emoji\""),
     ("serif", "ui-serif, Georgia, Cambria, \"Times New Roman\", Times, serif"),
     ("mono", "ui-monospace, SFMono-Regular, Menlo, Monaco, Consolas, monospace")]

def colorTokens : List (Text × Text) :=
  tokens "--color" [("black", "#000"), ("white", "#fff")] ++
  shades "red"
    ["#fef2f2", "#fee2e2", "#fecaca", "#fca5a5", "#f87171", "#ef4444", "#dc2626", "#b91c1c",
     "#991b1b", "#7f1d1d", "#450a0a"] ++
  shades "green"
    ["#f0fdf4", "#dcfce7", "#bbf7d0", "#86efac", "#4ade80", "#22c55e", "#16a34a", "#15803d",
     "#166534", "#14532d", "#052e16"] ++
  shades "blue"
    ["#eff6ff", "#dbeafe", "#bfdbfe", "#93c5fd", "#60a5fa", "#3b82f6", "#2563eb", "#1d4ed8",
     "#1e40af", "#1e3a8a", "#172554"] ++
  shades "gray"
    ["#f9fafb", "#f3f4f6", "#e5e7eb", "#d1d5db", "#9ca3af", "#6b7280", "#4b5563", "#374151",
     "#1f2937", "#111827", "#030712"]

def sizeTokens : List (Text × Text) :=
  token "--spacing" "0.25rem" ++
  tokens "--breakpoint"
    [("sm", "40rem"), ("md", "48rem"), ("lg", "64rem"), ("xl", "80rem"), ("2xl", "96rem")] ++
  tokens "--text"
    [("xs", "0.75rem"), ("sm", "0.875rem"), ("base", "1rem"), ("lg", "1.125rem"),
     ("xl", "1.25rem"), ("2xl", "1.5rem"), ("3xl", "1.875rem"), ("4xl", "2.25rem")]

def typeTokens : List (Text × Text) :=
  tokens "--font-weight"
    [("thin", "100"), ("light", "300"), ("normal", "400"), ("medium", "500"),
     ("semibold", "600"), ("bold", "700"), ("black", "900")] ++
  tokens "--tracking" [("tight", "-0.025em"), ("normal", "0em"), ("wide", "0.025em")] ++
  tokens "--leading" [("tight", "1.25"), ("normal", "1.5"), ("loose", "2")]

def shapeTokens : List (Text × Text) :=
  token "--radius" "0.25rem" ++
  tokens "--radius"
    [("sm", "0.125rem"), ("md", "0.375rem"), ("lg", "0.5rem"), ("xl", "0.75rem"),
     ("full", "9999px")] ++
  tokens "--shadow"
    [("sm", "0 1px 3px 0 rgb(0 0 0 / 0.1), 0 1px 2px -1px rgb(0 0 0 / 0.1)"),
     ("md", "0 4px 6px -1px rgb(0 0 0 / 0.1), 0 2px 4px -2px rgb(0 0 0 / 0.1)")] ++
  tokens "--aspect" [("video", "16 / 9")]

/-- Fonts, a palette, the spacing unit, breakpoints, type scales, radii and shadows. -/
def standard : Theme :=
  (fontTokens ++ colorTokens ++ sizeTokens ++ typeTokens ++ shapeTokens).foldl
    (fun theme (name, value) => theme.declare name value) empty

end AtomicCss.Theme
