import AtomicCss.Toml.Scalar

/-! Quoted texts in a TOML document. Double quotes allow escapes, single ones
do not; three of a kind enclose a text of several lines. Each function begins
behind the opening quotes and gives the text and what follows the closing ones. -/
namespace AtomicCss.Toml

/-- The characters that may stand in quotes, line breaks and escapes apart. -/
def isPlain (c : Char) : Bool := c == '\t' || (0x20 ≤ c.toNat && c.toNat != 0x7F)

/-- The characters that a single letter after a backslash stands for. -/
def escapes : List (Char × Char) :=
  [('b', '\x08'), ('t', '\t'), ('n', '\n'), ('f', '\x0c'), ('r', '\r'), ('"', '"'), ('\\', '\\')]

/-- The character with the code point that is written in hexadecimal digits. -/
def codePoint? (digits : List Char) : Option Char :=
  let n := natOf 16 digits
  if digits.all (isDigitOf 16) ∧ n.isValidChar then some (Char.ofNat n) else none

/-- Puts a character in front of a text that was read. -/
def cons (c : Char) (read : Option (Text × Text)) : Option (Text × Text) :=
  read.map fun (t, rest) => (c :: t, rest)

/-- A text in double quotes on one line. -/
def basic : Text → Option (Text × Text)
  | [] => none
  | '"' :: rest => some ([], rest)
  | '\\' :: 'u' :: a :: b :: c :: d :: rest =>
    (codePoint? [a, b, c, d]).bind fun x => cons x (basic rest)
  | '\\' :: 'U' :: a :: b :: c :: d :: e :: f :: g :: h :: rest =>
    (codePoint? [a, b, c, d, e, f, g, h]).bind fun x => cons x (basic rest)
  | '\\' :: c :: rest => (escapes.lookup c).bind fun x => cons x (basic rest)
  | c :: rest => if isPlain c then cons c (basic rest) else none

/-- A text in single quotes on one line. -/
def literal : Text → Option (Text × Text)
  | [] => none
  | '\'' :: rest => some ([], rest)
  | c :: rest => if isPlain c then cons c (literal rest) else none

/-- Up to two more quotes next to the closing ones belong to the text. -/
def closing (quote : Char) : Text → Text × Text
  | a :: b :: rest =>
    if a = quote then if b = quote then ([a, b], rest) else ([a], b :: rest)
    else ([], a :: b :: rest)
  | [a] => if a = quote then ([a], []) else ([], [a])
  | [] => ([], [])

/-- What a backslash at the end of a line leaves out. -/
inductive Gap where
  | none
  /-- Blanks up to the end of the line, which must come. -/
  | line
  /-- Blanks and line breaks up to the next other character. -/
  | lines
  deriving DecidableEq

/-- A text of several lines in double quotes. -/
def multiBasic (gap : Gap) : Text → Option (Text × Text)
  | [] => none
  | '\r' :: '\n' :: rest =>
    if gap = .none then cons '\n' (multiBasic .none rest) else multiBasic .lines rest
  | '\n' :: rest =>
    if gap = .none then cons '\n' (multiBasic .none rest) else multiBasic .lines rest
  | ' ' :: rest =>
    if gap = .none then cons ' ' (multiBasic .none rest) else multiBasic gap rest
  | '\t' :: rest =>
    if gap = .none then cons '\t' (multiBasic .none rest) else multiBasic gap rest
  | '"' :: '"' :: '"' :: rest => if gap = .line then none else some (closing '"' rest)
  | '\\' :: 'u' :: a :: b :: c :: d :: rest =>
    if gap = .line then none
    else (codePoint? [a, b, c, d]).bind fun x => cons x (multiBasic .none rest)
  | '\\' :: 'U' :: a :: b :: c :: d :: e :: f :: g :: h :: rest =>
    if gap = .line then none
    else (codePoint? [a, b, c, d, e, f, g, h]).bind fun x => cons x (multiBasic .none rest)
  | '\\' :: '\r' :: '\n' :: rest => if gap = .line then none else multiBasic .lines rest
  | '\\' :: c :: rest =>
    if gap = .line then none
    else if c = ' ' ∨ c = '\t' then multiBasic .line rest
    else if c = '\n' then multiBasic .lines rest
    else (escapes.lookup c).bind fun x => cons x (multiBasic .none rest)
  | c :: rest =>
    if gap = .line then none
    else if isPlain c then cons c (multiBasic .none rest)
    else none

/-- A text of several lines in single quotes. -/
def multiLiteral : Text → Option (Text × Text)
  | [] => none
  | '\r' :: '\n' :: rest => cons '\n' (multiLiteral rest)
  | '\n' :: rest => cons '\n' (multiLiteral rest)
  | '\'' :: '\'' :: '\'' :: rest => some (closing '\'' rest)
  | c :: rest => if isPlain c then cons c (multiLiteral rest) else none

/-- A line break right after three opening quotes is not part of the text. -/
def dropBreak : Text → Text
  | '\n' :: rest => rest
  | '\r' :: '\n' :: rest => rest
  | t => t

/-- A quoted text of any kind, from its opening quotes on. -/
def quoted? : Text → Option (Text × Text)
  | '"' :: '"' :: '"' :: rest => multiBasic .none (dropBreak rest)
  | '\'' :: '\'' :: '\'' :: rest => multiLiteral (dropBreak rest)
  | '"' :: rest => basic rest
  | '\'' :: rest => literal rest
  | _ => none

end AtomicCss.Toml
