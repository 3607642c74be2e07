import AtomicCss.Theme
import AtomicCss.Value.Lexeme
import AtomicCss.Value.Walk

/-! Calls such as `theme(colors.red.500)` with a dotted path of an older kind
become references to the tokens of the theme. A call whose path names no
token stays as it is. -/
namespace AtomicCss.Migration

/-- Where a call stands. Only the value of a declaration may hold a reference. -/
inductive Context where
  | declaration
  | atRule
  deriving DecidableEq, Repr

/-- The first part of a path and the namespace that it stands for. -/
def pathRoots : List (Text × Text) :=
  [("colors", "--color"),
   ("spacing", "--spacing"),
   ("fontSize", "--text"),
   ("fontFamily", "--font"),
   ("fontWeight", "--font-weight"),
   ("letterSpacing", "--tracking"),
   ("lineHeight", "--leading"),
   ("borderRadius", "--radius"),
   ("boxShadow", "--shadow"),
   ("screens", "--breakpoint"),
   ("aspectRatio", "--aspect"),
   ("backgroundColor", "--background-color"),
   ("textColor", "--text-color"),
   ("borderColor", "--border-color"),
   ("blur", "--blur"),
   ("animation", "--animate"),
   ("transitionTimingFunction", "--ease")]

/-- The parts of a path. Brackets count as points, and empty parts are left out. -/
def pathParts (path : Text) : List Text :=
  (Text.fields '.' (Text.replace ']' [] (Text.replace '[' "." path))).filter fun p => !p.isEmpty

/-- The token that a path names. Parts that say `DEFAULT` add nothing. -/
def token? (theme : Theme) (path : Text) : Option Text :=
  if List.isPrefixOf "--".toList path then none
  else
    match pathParts path with
    | [] => none
    | root :: parts =>
      (pathRoots.lookup root).bind fun ns =>
        let name := ns ++ (parts.filter (· != Theme.defaultKey)).flatMap fun p => '-' :: p
        if theme.contains name then some name else none

/-- What a call asks for: a token and possibly a modifier, which follows the
last slash and is written without blanks. -/
def request? (theme : Theme) (arguments : Text) : Option (Text × Option Text) :=
  let arguments := Text.trim arguments
  match token? theme arguments with
  | some token => some (token, none)
  | none =>
    match Text.splitLast '/' arguments with
    | none => none
    | some (path, modifier) =>
      let modifier := (Text.words modifier).flatten
      if modifier.isEmpty then none
      else (token? theme (Text.trim path)).map fun token => (token, some modifier)

/-- What is written for a request. A reference has no place for a modifier. -/
def requestNode (context : Context) : Text × Option Text → Value.Node
  | (token, some modifier) => .call "theme" [.word (token ++ " / " ++ modifier)]
  | (token, none) =>
    match context with
    | .declaration => .call "var" [.word token]
    | .atRule => .call "theme" [.word token]

/-- What is written for a theme call with these arguments, if it names a token. -/
def themeNode? (theme : Theme) (context : Context) (args : List Value.Node) :
    Option Value.Node :=
  (request? theme (Value.render args)).map (requestNode context)

/-- Replaces the theme calls that name a token. What another theme call holds is not looked into. -/
def replaceTheme (theme : Theme) (context : Context) : Value.Visitor Unit := fun n _ _ =>
  match n with
  | .call name args =>
    if name = "theme" then
      match themeNode? theme context args with
      | some node => (.replace [node], ())
      | none => (.skip, ())
    else (.descend, ())
  | _ => (.descend, ())

/-- The value with its theme calls replaced. A text without such a call is not read at all. -/
def migrateValue (theme : Theme) (context : Context) (t : Text) : Text :=
  if Text.occurs "theme(" t then
    Value.render (Value.walk (replaceTheme theme context) () (Value.parse t)).1
  else t

end AtomicCss.Migration
