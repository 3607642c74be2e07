import AtomicCss.Order
import AtomicCss.Value

/-! Walking a value tree. A visitor with a state of its own sees the nodes
from the root down and from left to right, always in the unchanged tree, and
answers what is to become of each. The replacements are noted by their paths
and put in place afterwards, the last path first, so that no noted path is
moved by an earlier replacement. -/
namespace AtomicCss.Value

/-- What is to become of a visited node. -/
inductive Action where
  /-- Keep the node and go on below it. -/
  | descend
  /-- Keep the node and everything below it. -/
  | skip
  /-- Put these nodes in its place. -/
  | replace (nodes : List Node)
  deriving Repr

/-- Where a visited node stands. -/
structure Position where
  /-- The call that it is an argument of. -/
  parent : Option Node
  siblings : List Node
  index : Nat
  /-- The indices that lead from the root to the node. -/
  path : List Nat

namespace Position

def previous (p : Position) : Option Node :=
  if p.index = 0 then none else p.siblings[p.index - 1]?

def following (p : Position) : Option Node := p.siblings[p.index + 1]?

def isFirst (p : Position) : Bool := p.index == 0

def isLast (p : Position) : Bool := p.index + 1 == p.siblings.length

/-- The path of the sibling number `index`. -/
def sibling (p : Position) (index : Nat) : List Nat := p.path.set (p.path.length - 1) index

end Position

/-- A state of type `σ` goes from each visited node to the next. -/
abbrev Visitor (σ : Type) := Node → Position → σ → Action × σ

/-- The nodes to put at a path. -/
structure Edit where
  path : List Nat
  nodes : List Node

mutual

/-- The edits at one node and below it, in the order of the visits. -/
def collectNode {σ : Type} (visit : Visitor σ) (p : Position) (state : σ) :
    Node → List Edit × σ
  | .word t =>
    match visit (.word t) p state with
    | (.replace nodes, state) => ([⟨p.path, nodes⟩], state)
    | (_, state) => ([], state)
  | .separator t =>
    match visit (.separator t) p state with
    | (.replace nodes, state) => ([⟨p.path, nodes⟩], state)
    | (_, state) => ([], state)
  | .call name args =>
    match visit (.call name args) p state with
    | (.replace nodes, state) => ([⟨p.path, nodes⟩], state)
    | (.skip, state) => ([], state)
    | (.descend, state) => collect visit (some (.call name args)) args p.path 0 state args

/-- The edits of the siblings from `index` on. -/
def collect {σ : Type} (visit : Visitor σ) (parent : Option Node) (siblings : List Node)
    (above : List Nat) (index : Nat) (state : σ) : List Node → List Edit × σ
  | [] => ([], state)
  | n :: ns =>
    let (edits, state) :=
      collectNode visit { parent, siblings, index, path := above ++ [index] } state n
    let (later, state) := collect visit parent siblings above (index + 1) state ns
    (edits ++ later, state)

end

/-- Puts the nodes in place of the one at the path. A path that leads nowhere
changes nothing. -/
def splice (nodes : List Node) : List Nat → List Node → List Node
  | [], tree => tree
  | [i], tree => if i < tree.length then tree.take i ++ nodes ++ tree.drop (i + 1) else tree
  | i :: path, tree =>
    tree.modify i fun
      | .call name args => .call name (splice nodes path args)
      | other => other

/-- The greater path first. -/
def laterFirst (a b : Edit) : Bool := dictionaryLe b.path a.path

/-- Puts the edits in place, those with the greatest paths first. -/
def applyEdits (edits : List Edit) (tree : List Node) : List Node :=
  (edits.mergeSort laterFirst).foldl (fun tree e => splice e.nodes e.path tree) tree

/-- The tree after all replacements, and the visitor's last state. -/
def walk {σ : Type} (visit : Visitor σ) (state : σ) (tree : List Node) : List Node × σ :=
  let (edits, state) := collect visit none tree [] 0 state tree
  (applyEdits edits tree, state)

end AtomicCss.Value
