import AtomicCss.Css

/-! Flattening nested rules: declarations go into one rule for the selector,
a nested rule becomes a rule of its own with `&` replaced by the selector, and
a nested at-rule goes around the rules that it holds. -/
namespace AtomicCss.Css

def Node.isDeclaration : Node → Bool
  | .declaration _ => true
  | _ => false

/-- One rule with the declarations among the nodes, if there are any. -/
def ownRule (selector : Text) (nodes : List Node) : List Node :=
  match nodes.filter Node.isDeclaration with
  | [] => []
  | declarations => [.rule selector declarations]

mutual

/-- The rules that come from what is nested in a node. -/
def nestedNode (selector : Text) : Node → List Node
  | .declaration _ => []
  | .rule template nodes =>
    let inner := Text.replace '&' selector template
    ownRule inner nodes ++ nestedRules inner nodes
  | .atRule name params nodes =>
    [.atRule name params (ownRule selector nodes ++ nestedRules selector nodes)]

def nestedRules (selector : Text) : List Node → List Node
  | [] => []
  | n :: ns => nestedNode selector n ++ nestedRules selector ns

end

/-- The nodes as rules for a selector, the declarations first. -/
def flatten (selector : Text) (nodes : List Node) : List Node :=
  ownRule selector nodes ++ nestedRules selector nodes

end AtomicCss.Css
