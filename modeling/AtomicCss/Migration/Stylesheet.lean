import AtomicCss.Migration.ThemeCall

/-! Replacing theme calls in a style sheet: in what follows the name of an
at-rule and in the values of declarations, but not in selectors. -/
namespace AtomicCss.Migration

def isTerminator (c : Char) : Bool := c == '\x7b' || c == '\x7d' || c == ';'

/-- Puts a character in front of the first statement. -/
def consStatement (c : Char) :
    List (Text × Option Char) → List (Text × Option Char)
  | [] => [([c], none)]
  | (t, terminator) :: rest => (c :: t, terminator) :: rest

/-- The statements of a style sheet, each with the character that ends it.
Quotes and parentheses hide these characters. -/
def statements (quote : Option Char) (depth : Nat) : Text → List (Text × Option Char)
  | [] => [([], none)]
  | c :: rest =>
    match quote with
    | some q => consStatement c (statements (if c = q then none else some q) depth rest)
    | none =>
      if isTerminator c && depth == 0 then ([], some c) :: statements none 0 rest
      else if c = '"' ∨ c = '\'' then consStatement c (statements (some c) depth rest)
      else if c = '(' then consStatement c (statements none (depth + 1) rest)
      else if c = ')' then consStatement c (statements none (depth - 1) rest)
      else consStatement c (statements none depth rest)

def isNameChar (c : Char) : Bool := c.isAlphanum || c == '-'

/-- One statement, given how it ends. -/
def migrateStatement (theme : Theme) (t : Text) (terminator : Option Char) : Text :=
  let lead := t.takeWhile Text.isBlank
  match t.dropWhile Text.isBlank with
  | '@' :: rest =>
    lead ++ '@' :: rest.takeWhile isNameChar ++
      migrateValue theme .atRule (rest.dropWhile isNameChar)
  | _ =>
    if terminator = some '\x7b' then t
    else
      match Text.splitFirst ':' t with
      | some (property, value) => property ++ ':' :: migrateValue theme .declaration value
      | none => t

def migrateStylesheet (theme : Theme) (css : Text) : Text :=
  (statements none 0 css).flatMap fun (t, terminator) =>
    migrateStatement theme t terminator ++ terminator.toList

end AtomicCss.Migration
