import AtomicCss.Text

/-! Class names as they stand in selectors. Punctuation is escaped by a
backslash, a digit at the front by its code point. -/
namespace AtomicCss.Css

/-- The characters that a backslash must precede in a selector. -/
def needsBackslash (c : Char) : Bool :=
  "\\:/[]()\x7b\x7d&>+~,%=!*@#'\".$^|? ".toList.contains c

def escapeChar (c : Char) : Text := if needsBackslash c then ['\\', c] else [c]

/-- The selector text of a class name, to be put behind a dot. -/
def escapeClass : Text → Text
  | [] => []
  | c :: rest =>
    (if c.isDigit then ['\\', '3', c, ' '] else escapeChar c) ++ rest.flatMap escapeChar

end AtomicCss.Css
