import AtomicCss.Value.Spacing

/-! The spaces around the operators of mathematical functions, as in
`calc(1 + 2)`. Each operator is judged by the text in front of it, with the
spaces that were already added, and by the character behind it. -/
namespace AtomicCss.Arbitrary

/-- The functions whose arguments are mathematical expressions. -/
def mathFunctions : List Text :=
  ["calc", "min", "max", "clamp", "mod", "rem", "round", "sin", "cos", "tan", "asin", "acos",
   "atan", "atan2", "pow", "sqrt", "hypot", "log", "exp"]

def isOperandChar (c : Char) : Bool := c.isAlphanum || c == '.' || c == '%'

/-- The first character of the operand at the end of a text, which is given
from its last character to its first. -/
def operandHead (written : Text) : Option Char := (written.takeWhile isOperandChar).getLast?

/-- Whether `op` joins two operands, where `written` is the text in front of it
from its last character to its first. A sign needs a number or a closing
parenthesis in front: `1rem-2px` is a subtraction, `max-content` is one name. -/
def isBinary (op : Char) (written : Text) : Bool :=
  let before := written.dropWhile Text.isBlank
  match before with
  | [] => false
  | c :: _ =>
    if op = '+' ∨ op = '-' then
      c == ')' || (operandHead before).any fun d => d.isDigit || d == '.'
    else !(c == '(' || c == '+' || c == '-' || c == '*' || c == '/' || c == ',')

/-- An operator with the spaces that it still lacks. -/
def spacedOut (op : Char) (written rest : Text) : Text :=
  match rest with
  | [] => [op]
  | next :: _ =>
    if next = ')' || !isBinary op written then [op]
    else
      (if written.head?.any Text.isBlank then [] else [' ']) ++ op ::
        (if Text.isBlank next then [] else [' '])

/-- What is known at a place of the text. -/
structure MathState where
  /-- The text in front, from its last character to its first. -/
  written : Text
  /-- For each open parenthesis, the innermost first, whether it holds mathematics. -/
  parens : List Bool
  quote : Option Char

namespace MathState

def start : MathState := { written := [], parens := [], quote := none }

def inMath (s : MathState) : Bool := s.parens.head? == some true

/-- Whether a parenthesis that opens here holds mathematics: after the name of
a mathematical function, or without a name inside of mathematics. -/
def opensMath (s : MathState) : Bool :=
  let name := Text.lower (s.written.takeWhile fun c => c.isAlphanum || c == '-').reverse
  mathFunctions.contains name || (name.isEmpty && s.inMath)

/-- What is written for the character `c` with `rest` behind it. -/
def emit (s : MathState) (c : Char) (rest : Text) : Text :=
  if s.quote = none ∧ (c = '+' ∨ c = '-' ∨ c = '*' ∨ c = '/') ∧ s.inMath then
    spacedOut c s.written rest
  else [c]

def next (s : MathState) (c : Char) (rest : Text) : MathState :=
  let written := (s.emit c rest).reverse ++ s.written
  match s.quote with
  | some q => { s with written, quote := if c = q then none else some q }
  | none =>
    if c = '"' ∨ c = '\'' then { s with written, quote := some c }
    else if c = '(' then { s with written, parens := s.opensMath :: s.parens }
    else if c = ')' then { s with written, parens := s.parens.tail }
    else { s with written }

end MathState

def spaceFrom (s : MathState) : Text → Text
  | [] => []
  | c :: rest => s.emit c rest ++ spaceFrom (s.next c rest) rest

/-- The text with spaces around the binary operators of mathematical functions. -/
def spaceOperators (t : Text) : Text := spaceFrom .start t

end AtomicCss.Arbitrary
