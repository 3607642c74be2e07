import AtomicCss.Proofs.Css.Nesting

/-! The selectors that flattening gives to nested rules. The rules around a list of siblings
are its trail; the list becomes the body of a rule whose selector is what the templates of
the trail make of the outer selector one after the other. -/
namespace AtomicCss.Css

/-- The selector inside of nested rules, given their templates from the outside in. -/
def nest (selector : Text) (templates : List Text) : Text :=
  templates.foldl (Text.replace '&') selector

theorem nest_concat (selector : Text) (templates : List Text) (template : Text) :
    nest selector (templates ++ [template]) =
      Text.replace '&' (nest selector templates) template := by
  simp [nest]

/-- The declarations among siblings behind their trail, if there are any. -/
def ownTrail (around : List Text) (nodes : List Node) : List (List Text × List Declaration) :=
  match declared nodes with
  | [] => []
  | ds => [(around, ds)]

mutual

def trailsNode (around : List Text) : Node → List (List Text × List Declaration)
  | .declaration _ => []
  | .rule template nodes =>
    let around := around ++ [template]
    ownTrail around nodes ++ trailsBelow around nodes
  | .atRule _ _ nodes => ownTrail around nodes ++ trailsBelow around nodes

def trailsBelow (around : List Text) : List Node → List (List Text × List Declaration)
  | [] => []
  | n :: ns => trailsNode around n ++ trailsBelow around ns

end

/-- The declarations of each list of siblings, in their order, with the templates of the rules around
the list from the outside in. An outer list comes before the lists nested in it. -/
def trails (around : List Text) (nodes : List Node) : List (List Text × List Declaration) :=
  ownTrail around nodes ++ trailsBelow around nodes

section

variable (around : List Text) (ns : List Node)

@[simp] theorem trailsBelow_nil : trailsBelow around [] = [] := by
  simp [trailsBelow]

@[simp] theorem trailsBelow_declaration (d : Declaration) :
    trailsBelow around (.declaration d :: ns) = trailsBelow around ns := by
  simp [trailsBelow, trailsNode]

@[simp] theorem trailsBelow_rule (template : Text) (nodes : List Node) :
    trailsBelow around (.rule template nodes :: ns) =
      trails (around ++ [template]) nodes ++ trailsBelow around ns := by
  simp [trailsBelow, trailsNode, trails]

@[simp] theorem trailsBelow_atRule (name params : Text) (nodes : List Node) :
    trailsBelow around (.atRule name params nodes :: ns) =
      trails around nodes ++ trailsBelow around ns := by
  simp [trailsBelow, trailsNode, trails]

theorem trailsBelow_append (ms : List Node) :
    trailsBelow around (ns ++ ms) = trailsBelow around ns ++ trailsBelow around ms := by
  induction ns with
  | nil => simp
  | cons n ns ih => simp [trailsBelow, ih]

theorem trailsBelow_map (ds : List Declaration) :
    trailsBelow around (ds.map .declaration) = [] := by
  induction ds with
  | nil => simp
  | cons d ds ih => simp [ih]

end

/-- Where no declaration stands outside of the rules, the outer list has no trail. -/
theorem trails_of_flat {nodes : List Node} (around : List Text) (flat : ∀ n ∈ nodes, Flat n) :
    trails around nodes = trailsBelow around nodes := by
  simp [trails, ownTrail, declared_of_flat flat]

theorem trailsBelow_ownRule (around : List Text) (selector : Text) (nodes : List Node) :
    trailsBelow around (ownRule selector nodes) = ownTrail (around ++ [selector]) nodes := by
  rcases ownRule_cases selector nodes with ⟨rule, none_left⟩ | ⟨rule, -⟩
  · simp [rule, ownTrail, none_left]
  · rw [rule, trailsBelow_rule, trails, trailsBelow_map, trailsBelow_nil]
    simp [ownTrail]

/-- A trail and its declarations as the one rule that they become. -/
def flattened (selector : Text) (trail : List Text × List Declaration) : List Text × List Declaration :=
  ([nest selector trail.1], trail.2)

theorem ownTrail_nest (selector : Text) (around : List Text) (nodes : List Node) :
    ownTrail [nest selector around] nodes = (ownTrail around nodes).map (flattened selector) := by
  unfold ownTrail
  split <;> rfl

theorem trailsBelow_nestedRules (selector : Text) (around : List Text) (nodes : List Node) :
    trailsBelow [] (nestedRules (nest selector around) nodes) =
      (trailsBelow around nodes).map (flattened selector) := by
  induction nodes using nodes_induction generalizing around with
  | nil => simp [nestedRules]
  | declaration d ns ih => simpa using ih around
  | rule template nodes ns inner later =>
    rw [nestedRules_rule, flatten, ← nest_concat, trailsBelow_append, trailsBelow_append,
      trailsBelow_ownRule, inner, later, trailsBelow_rule, trails, List.nil_append, ownTrail_nest,
      List.map_append, List.map_append]
  | atRule name params nodes ns inner later =>
    rw [nestedRules_atRule, trailsBelow_atRule, trails_of_flat _ (flat_flatten _ nodes), flatten,
      trailsBelow_append, trailsBelow_ownRule, inner, later, trailsBelow_atRule, trails,
      List.nil_append, ownTrail_nest, List.map_append, List.map_append]

/-- Each list of siblings becomes one rule with the selector that its trail makes. -/
theorem trails_flatten (selector : Text) (nodes : List Node) :
    trails [] (flatten selector nodes) = (trails [] nodes).map (flattened selector) := by
  have below := trailsBelow_nestedRules selector [] nodes
  have own := ownTrail_nest selector [] nodes
  rw [trails_of_flat [] (flat_flatten selector nodes), flatten, trailsBelow_append,
    trailsBelow_ownRule, trails, List.map_append, ← below, ← own]
  rfl

end AtomicCss.Css
