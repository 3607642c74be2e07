import AtomicCss.Value.Lexeme
import AtomicCss.Value.Walk

/-! The canonical spacing of a value. A binary operator between two single
spaces loses both, and blank separators at either end of a list of siblings
go away. A first walk marks them and a second one takes them out. -/
namespace AtomicCss.Value

namespace Node

def isOperator : Node → Bool
  | .word t => t == ['+'] || t == ['-'] || t == ['*'] || t == ['/']
  | _ => false

end Node

/-- The paths that are marked at a node: those of the single spaces on both sides of an
operator, and its own for a blank separator at either end. -/
def markedAt (n : Node) (p : Position) : List (List Nat) :=
  if n.isOperator then
    if p.previous.any Node.isSpace && p.following.any Node.isSpace then
      [p.sibling (p.index - 1), p.sibling (p.index + 1)]
    else []
  else if n.isBlankSeparator && (p.isFirst || p.isLast) then [p.path]
  else []

/-- Marks what goes away, in any order. -/
def markSpaces : Visitor (List (List Nat)) := fun n p marked => (.descend, markedAt n p ++ marked)

/-- Takes out what is marked. -/
def dropMarked (marked : List (List Nat)) : Visitor Unit := fun _ p _ =>
  (if marked.contains p.path then .replace [] else .descend, ())

/-- The tree in its canonical spacing. -/
def compactTree (tree : List Node) : List Node :=
  let (tree, marked) := walk markSpaces [] tree
  if marked.isEmpty then tree else (walk (dropMarked marked) () tree).1

/-- The text in its canonical spacing. -/
def compactText (t : Text) : Text := render (compactTree (parse t))

/-- `&:is(X)` in its short form `X`; any other text stays. -/
def unwrapIs (t : Text) : Text :=
  match parse t with
  | [.word amp, .separator colon, .call name args] =>
    if amp = ['&'] ∧ colon = [':'] ∧ name = ['i', 's'] then render args else t
  | _ => t

end AtomicCss.Value
