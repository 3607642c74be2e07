import AtomicCss.Text

/-! The value tree of a piece of CSS: words, the separators between them, and
calls whose arguments are trees again. Writing a tree is plain
concatenation, since separators are kept as they were read. -/
namespace AtomicCss.Value

inductive Node where
  | word (text : Text)
  | separator (text : Text)
  | call (name : Text) (args : List Node)
  deriving Repr, Inhabited

namespace Node

/-- A separator of one or more blank characters and nothing else. -/
def isBlankSeparator : Node → Bool
  | .separator t => !t.isEmpty && t.all Text.isBlank
  | _ => false

/-- Exactly one space. -/
def isSpace : Node → Bool
  | .separator t => t == [' ']
  | _ => false

end Node

mutual

/-- The text of one node. -/
def renderNode : Node → Text
  | .word t => t
  | .separator t => t
  | .call name args => name ++ '(' :: (render args ++ [')'])

/-- The text of a list of siblings. -/
def render : List Node → Text
  | [] => []
  | n :: ns => renderNode n ++ render ns

end

end AtomicCss.Value
