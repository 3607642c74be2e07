import AtomicCss.Text

/-! Style sheets as trees of declarations, rules and at-rules. -/
namespace AtomicCss.Css

structure Declaration where
  property : Text
  value : Text
  important : Bool
  deriving DecidableEq, Repr

inductive Node where
  | declaration (d : Declaration)
  | rule (selector : Text) (nodes : List Node)
  | atRule (name : Text) (params : Text) (nodes : List Node)
  deriving Repr, Inhabited

/-- A declaration that is not important. -/
def declare (property value : Text) : Node := .declaration { property, value, important := false }

mutual

def decEqNode : (a b : Node) → Decidable (a = b)
  | .declaration a, .declaration b =>
    if h : a = b then isTrue (h ▸ rfl) else isFalse fun e => h (Node.declaration.inj e)
  | .rule s ns, .rule t ms =>
    if h : s = t then
      match decEqNodes ns ms with
      | isTrue e => isTrue (h ▸ e ▸ rfl)
      | isFalse n => isFalse fun e => n (Node.rule.inj e).2
    else isFalse fun e => h (Node.rule.inj e).1
  | .atRule s p ns, .atRule t q ms =>
    if h : s = t ∧ p = q then
      match decEqNodes ns ms with
      | isTrue e => isTrue (h.1 ▸ h.2 ▸ e ▸ rfl)
      | isFalse n => isFalse fun e => n (Node.atRule.inj e).2.2
    else isFalse fun e => h ⟨(Node.atRule.inj e).1, (Node.atRule.inj e).2.1⟩
  | .declaration _, .rule .. => isFalse nofun
  | .declaration _, .atRule .. => isFalse nofun
  | .rule .., .declaration _ => isFalse nofun
  | .rule .., .atRule .. => isFalse nofun
  | .atRule .., .declaration _ => isFalse nofun
  | .atRule .., .rule .. => isFalse nofun

def decEqNodes : (ns ms : List Node) → Decidable (ns = ms)
  | [], [] => isTrue rfl
  | [], _ :: _ => isFalse nofun
  | _ :: _, [] => isFalse nofun
  | n :: ns, m :: ms =>
    match decEqNode n m with
    | isFalse h => isFalse fun e => h (List.cons.inj e).1
    | isTrue h =>
      match decEqNodes ns ms with
      | isTrue e => isTrue (h ▸ e ▸ rfl)
      | isFalse k => isFalse fun e => k (List.cons.inj e).2

end

instance : DecidableEq Node := decEqNode

mutual

/-- Marks every declaration in a node as important. -/
def markNode : Node → Node
  | .declaration d => .declaration { d with important := true }
  | .rule selector nodes => .rule selector (markImportant nodes)
  | .atRule name params nodes => .atRule name params (markImportant nodes)

/-- Marks every declaration, at any depth, as important. -/
def markImportant : List Node → List Node
  | [] => []
  | n :: ns => markNode n :: markImportant ns

end

end AtomicCss.Css
