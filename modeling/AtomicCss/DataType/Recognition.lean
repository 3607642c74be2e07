import AtomicCss.DataType
import AtomicCss.DataType.Keywords
import AtomicCss.Text.Alphanumeric
import AtomicCss.Value.Lexeme

/-! Which values belong to which types, judged by their text. A reference to a
variable belongs to every type, and a blank text to none. -/
namespace AtomicCss.DataType

/-- The name, in lower case, of the call that is the whole value. -/
def callName? (t : Text) : Option Text :=
  match Value.parse t with
  | [.call name _] => some (Text.lower name)
  | _ => none

/-- Whether the whole value is one call of a function from the list. -/
def callsOneOf (names : List Text) (t : Text) : Bool := (callName? t).any names.contains

/-- The digits at the front, with at most one point among them, and the rest. -/
def splitDigits (pointSeen : Bool) : Text → Text × Text
  | [] => ([], [])
  | c :: rest =>
    if c.isDigit then
      let (digits, rest) := splitDigits pointSeen rest
      (c :: digits, rest)
    else if c = '.' && !pointSeen then
      let (digits, rest) := splitDigits true rest
      (c :: digits, rest)
    else ([], c :: rest)

/-- The number at the front of a value, without its sign, and the unit that follows. -/
def splitNumber? (t : Text) : Option (Text × Text) :=
  let unsigned :=
    match t with
    | '+' :: rest => rest
    | '-' :: rest => rest
    | t => t
  let (digits, unit) := splitDigits false unsigned
  if digits.any Char.isDigit then some (digits, unit) else none

/-- A number that is followed by a unit from the list. -/
def hasUnit (units : List Text) (t : Text) : Bool :=
  (splitNumber? t).any fun (_, unit) => units.contains (Text.lower unit)

def isNumber (t : Text) : Bool := (splitNumber? t).any fun (_, unit) => unit.isEmpty

/-- Any spelling of zero without a unit. -/
def isZero (t : Text) : Bool :=
  (splitNumber? t).any fun (digits, unit) =>
    unit.isEmpty && digits.all fun c => c == '0' || c == '.'

def isPercentage (t : Text) : Bool := (splitNumber? t).any fun (_, unit) => unit == ['%']

def isInteger (t : Text) : Bool :=
  match t with
  | '+' :: rest => Text.isDigits rest
  | '-' :: rest => Text.isDigits rest
  | t => Text.isDigits t

def isLength (t : Text) : Bool :=
  callsOneOf calculations t || isZero t || hasUnit lengthUnits t

def isHexDigit (c : Char) : Bool :=
  c.isDigit || ('a' ≤ c && c ≤ 'f') || ('A' ≤ c && c ≤ 'F')

def isHexColor (digits : Text) : Bool :=
  [3, 4, 6, 8].contains digits.length && digits.all isHexDigit

/-- A hexadecimal colour, a call of a colour function or the name of a colour. -/
def isColor (t : Text) : Bool :=
  match t with
  | '#' :: digits => isHexColor digits
  | t =>
    match callName? t with
    | some name => colorFunctions.contains name
    | none => colorKeywords.contains (Text.lower t)

/-- Two numbers with a slash between them. -/
def isRatio (t : Text) : Bool :=
  match Text.splitFirst '/' t with
  | some (a, b) => isNumber (Text.trim a) && isNumber (Text.trim b)
  | none => false

/-- Keywords, lengths and percentages in any number, with blanks between them. -/
def isPosition (t : Text) : Bool :=
  (Text.words t).all fun part =>
    positionKeywords.contains part || isLength part || isPercentage part

def isFamilyChar (c : Char) : Bool :=
  Text.isAlphanumeric c || c == '-' || c == '_' || c == ' '

/-- One family: words that do not begin with a digit, or a text with the same
kind of quote at both ends. -/
def isFamily (t : Text) : Bool :=
  match t with
  | [] => false
  | c :: _ =>
    !c.isDigit &&
      ((c == '"' && t.getLast? == some '"') || (c == '\'' && t.getLast? == some '\'') ||
        t.all isFamilyChar)

/-- Families with commas between them. -/
def isFamilyName (t : Text) : Bool := (Text.fields ',' t).all fun f => isFamily (Text.trim f)

/-- The values of a type, trimmed and without the references to variables. -/
def recognizes : DataType → Text → Bool
  | any, _ => true
  | color, t => isColor t
  | length, t => isLength t
  | percentage, t => isPercentage t || callsOneOf calculations t
  | number, t => isNumber t || callsOneOf calculations t
  | integer, t => isInteger t
  | ratio, t => isRatio t
  | angle, t => callsOneOf calculations t || hasUnit angleUnits t
  | url, t => callsOneOf ["url"] t
  | image, t => callsOneOf imageFunctions t
  | lineWidth, t => lineWidthKeywords.contains t || isLength t
  | position, t => isPosition t
  | familyName, t => isFamilyName t

/-- Whether a text is a value of the type. -/
def accepts (type : DataType) (t : Text) : Bool :=
  let value := Text.trim t
  !value.isEmpty && (callsOneOf ["var"] value || type.recognizes value)

/-- The first of the types that the text is a value of. -/
def infer (t : Text) (types : List DataType) : Option DataType :=
  types.find? fun type => type.accepts t

end AtomicCss.DataType
