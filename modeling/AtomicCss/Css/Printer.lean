import AtomicCss.Css

/-! The text of a style sheet, either indented by two spaces a level, with one
statement on each line, or without any blank that is not needed. -/
namespace AtomicCss.Css

/-- The text in front of the block or the semicolon of an at-rule. -/
def atRuleHeader (name params : Text) : Text :=
  '@' :: name ++ if params.isEmpty then [] else ' ' :: params

/-- Without the semicolon at the end, if there is one. -/
def dropSemicolon (t : Text) : Text := if t.getLast? = some ';' then t.dropLast else t

def indentation (depth : Nat) : Text := List.replicate (2 * depth) ' '

mutual

def prettyNode (depth : Nat) : Node → Text
  | .declaration d =>
    indentation depth ++ d.property ++ ": " ++ d.value ++
      (if d.important then " !important" else "") ++ ";\n"
  | .rule selector nodes =>
    indentation depth ++ selector ++ " \x7b\n" ++ prettyNodes (depth + 1) nodes ++
      indentation depth ++ "\x7d\n"
  | .atRule name params [] => indentation depth ++ atRuleHeader name params ++ ";\n"
  | .atRule name params (n :: ns) =>
    indentation depth ++ atRuleHeader name params ++ " \x7b\n" ++
      (prettyNode (depth + 1) n ++ prettyNodes (depth + 1) ns) ++ indentation depth ++ "\x7d\n"

def prettyNodes (depth : Nat) : List Node → Text
  | [] => []
  | n :: ns => prettyNode depth n ++ prettyNodes depth ns

end

mutual

def minifiedNode : Node → Text
  | .declaration d =>
    d.property ++ ":" ++ d.value ++ (if d.important then "!important" else "") ++ ";"
  | .rule selector nodes => selector ++ "\x7b" ++ dropSemicolon (minifiedNodes nodes) ++ "\x7d"
  | .atRule name params [] => atRuleHeader name params ++ ";"
  | .atRule name params (n :: ns) =>
    atRuleHeader name params ++ "\x7b" ++ dropSemicolon (minifiedNode n ++ minifiedNodes ns) ++
      "\x7d"

def minifiedNodes : List Node → Text
  | [] => []
  | n :: ns => minifiedNode n ++ minifiedNodes ns

end

/-- The indented style sheet. -/
def pretty (nodes : List Node) : Text := prettyNodes 0 nodes

/-- The shortest style sheet. The last semicolon of a block is not needed. -/
def minified (nodes : List Node) : Text := dropSemicolon (minifiedNodes nodes)

/-- One node on its own, without the line break at its end. -/
def prettyAlone (n : Node) : Text := Text.trimEnd (prettyNode 0 n)

end AtomicCss.Css
