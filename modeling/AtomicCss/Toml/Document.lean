import AtomicCss.Toml.Quoted

/-! Reading a TOML document. A reader takes what it reads off the front of the
remaining text and fails where the text is no document. -/
namespace AtomicCss.Toml

abbrev Reader := StateT Text Option

namespace Reader

def isSpacing (c : Char) : Bool := c == ' ' || c == '\t'

def skipSpacing : Reader Unit := modify (·.dropWhile isSpacing)

/-- Reads this text. -/
def exactly (t : Text) : Reader Unit := do
  match Text.stripStart? t (← get) with
  | some rest => set rest
  | none => failure

/-- Reads one character, if it is this one. -/
def optional (c : Char) : Reader Bool := do
  match ← get with
  | d :: rest => if d = c then set rest *> return true else return false
  | [] => return false

def takeWhile (p : Char → Bool) : Reader Text :=
  modifyGet fun t => (t.takeWhile p, t.dropWhile p)

/-- What follows blanks, line breaks and comments. -/
def afterLines (inComment : Bool) : Text → Option Text
  | [] => some []
  | '\r' :: '\n' :: rest => afterLines false rest
  | '\n' :: rest => afterLines false rest
  | c :: rest =>
    if inComment then if isPlain c then afterLines true rest else none
    else if isSpacing c then afterLines false rest
    else if c = '#' then afterLines true rest
    else some (c :: rest)

def skipLines : Reader Unit := do set (← afterLines false (← get))

/-- What may follow a statement on its line. -/
def endLine : Reader Unit := do
  skipSpacing
  if ← optional '#' then let _ ← takeWhile isPlain
  match ← get with
  | [] => return
  | '\n' :: rest => set rest
  | '\r' :: '\n' :: rest => set rest
  | _ => failure

def isBareChar (c : Char) : Bool := c.isAlphanum || c == '-' || c == '_'

def simpleKey : Reader Text := do
  match ← get with
  | '"' :: rest =>
    let (key, rest) ← basic rest
    set rest
    return key
  | '\'' :: rest =>
    let (key, rest) ← literal rest
    set rest
    return key
  | _ =>
    let key ← takeWhile isBareChar
    if key.isEmpty then failure else return key

/-- The parts of a key with points between them, at most so many. -/
def keyParts : Nat → Reader (List Text)
  | 0 => failure
  | count + 1 => do
    skipSpacing
    let part ← simpleKey
    skipSpacing
    if ← optional '.' then return part :: (← keyParts count) else return [part]

/-- Keys and values are nested at most this deep. -/
def maxDepth : Nat := 79

/-- A key: the path to it and its last part. -/
def key : Reader (List Text × Text) := do
  let parts ← keyParts maxDepth
  return (parts.dropLast, ← parts.getLast?)

def isTokenChar (c : Char) : Bool :=
  c.isAlphanum || c == '_' || c == '+' || c == '-' || c == '.' || c == ':'

/-- A token, or a date and a time with one space between them. -/
def token : Reader Text := do
  let front ← takeWhile isTokenChar
  match date? front, ← get with
  | some (_, []), ' ' :: c :: rest =>
    if c.isDigit then
      set (c :: rest)
      return front ++ ' ' :: (← takeWhile isTokenChar)
    else return front
  | _, _ => return front

/-- A value that holds no other values. -/
def simpleValue : Reader Value := do
  match ← get with
  | '"' :: _ | '\'' :: _ =>
    let (t, rest) ← quoted? (← get)
    set rest
    return .text t
  | _ =>
    let t ← token
    if t = "true" then return .boolean true
    else if t = "false" then return .boolean false
    else scalar? t

/-- The rest of a list, of at most so many items. -/
def items (item : Reader Value) : Nat → Reader (List Value)
  | 0 => failure
  | count + 1 => do
    skipLines
    if ← optional ']' then return []
    let v ← item
    skipLines
    if ← optional ',' then return v :: (← items item count)
    exactly "]"
    return [v]

/-- A key and its value. -/
def pair (item : Reader Value) : Reader (List Text × Text × Value) := do
  let (path, last) ← key
  exactly "="
  skipSpacing
  return (path, last, ← item)

/-- The rest of an inline table, of one to so many entries. -/
def pairs (item : Reader Value) : Nat → Reader (List (List Text × Text × Value))
  | 0 => failure
  | count + 1 => do
    let entry ← pair item
    skipSpacing
    if ← optional ',' then return entry :: (← pairs item count)
    exactly "\x7d"
    return [entry]

/-- A value that holds others at most so many levels deep. -/
def value : Nat → Reader Value
  | 0 => simpleValue
  | depth + 1 => do
    if ← optional '[' then return .list (← items (value depth) ((← get).length + 1))
    else if ← optional '\x7b' then
      skipSpacing
      if ← optional '\x7d' then return .table .inline []
      ofInline (← pairs (value depth) ((← get).length + 1))
    else simpleValue

def statement : Reader Statement := do
  if ← optional '[' then
    if ← optional '[' then
      let (path, last) ← key
      exactly "]]"
      return .elementHeader path last
    else
      let (path, last) ← key
      exactly "]"
      return .header path last
  else
    let (path, last, v) ← pair (value maxDepth)
    return .assignment path last v

/-- The statements of a document, at most so many. -/
def statements : Nat → Reader (List Statement)
  | 0 => failure
  | count + 1 => do
    skipLines
    if (← get).isEmpty then return []
    let s ← statement
    endLine
    return s :: (← statements count)

end Reader

/-- The root table of a document, which may begin with a byte order mark. -/
def parse? (t : Text) : Option Entries := do
  let t := (Text.stripStart? ['\uFEFF'] t).getD t
  let (statements, _) ← Reader.statements (t.length + 1) t
  ofStatements statements

end AtomicCss.Toml
