import AtomicCss.Css.Nesting
import AtomicCss.Step
import Mathlib.Data.List.Perm.Basic

/-! Flattening nested rules moves declarations and loses none. Each list of
siblings that holds declarations becomes the body of one rule, under the
at-rules that it stood under, and the bodies follow one another as the lists
did. -/
namespace AtomicCss.Css

/-- A rule holds declarations only and at least one; outside of the rules there are none. -/
inductive Flat : Node → Prop
  | rule {selector : Text} {nodes : List Node} (nonempty : nodes ≠ [])
    (declared : ∀ n ∈ nodes, ∃ d, n = .declaration d) : Flat (.rule selector nodes)
  | atRule {name params : Text} {nodes : List Node} (inner : ∀ n ∈ nodes, Flat n) :
    Flat (.atRule name params nodes)

mutual

/-- The declarations in a node, each with the at-rules around it from the outside in. -/
def placedNode (around : List AtRule) : Node → List (List AtRule × Declaration)
  | .declaration d => [(around, d)]
  | .rule _ nodes => placed around nodes
  | .atRule name params nodes => placed (around ++ [⟨name, params⟩]) nodes

def placed (around : List AtRule) : List Node → List (List AtRule × Declaration)
  | [] => []
  | n :: ns => placedNode around n ++ placed around ns

end

def Node.declaration? : Node → Option Declaration
  | .declaration d => some d
  | _ => none

/-- The declarations that stand among siblings. -/
def declared (nodes : List Node) : List Declaration := nodes.filterMap Node.declaration?

/-- The declarations among siblings as one group, if there are any. -/
def ownGroup (around : List AtRule) (nodes : List Node) : List (List AtRule × List Declaration) :=
  match declared nodes with
  | [] => []
  | ds => [(around, ds)]

mutual

def groupsNode (around : List AtRule) : Node → List (List AtRule × List Declaration)
  | .declaration _ => []
  | .rule _ nodes => ownGroup around nodes ++ groupsBelow around nodes
  | .atRule name params nodes =>
    let around := around ++ [⟨name, params⟩]
    ownGroup around nodes ++ groupsBelow around nodes

def groupsBelow (around : List AtRule) : List Node → List (List AtRule × List Declaration)
  | [] => []
  | n :: ns => groupsNode around n ++ groupsBelow around ns

end

/-- The declarations of each list of siblings, in their order, with the at-rules around the list.
An outer list comes before the lists nested in it. -/
def groups (around : List AtRule) (nodes : List Node) : List (List AtRule × List Declaration) :=
  ownGroup around nodes ++ groupsBelow around nodes

/-- Lists of siblings, by their first node and what is nested in it. -/
theorem nodes_induction {motive : List Node → Prop} (nil : motive [])
    (declaration : ∀ d ns, motive ns → motive (.declaration d :: ns))
    (rule : ∀ selector nodes ns, motive nodes → motive ns → motive (.rule selector nodes :: ns))
    (atRule : ∀ name params nodes ns, motive nodes → motive ns →
      motive (.atRule name params nodes :: ns)) : (nodes : List Node) → motive nodes
  | [] => nil
  | .declaration d :: ns => declaration d ns (nodes_induction nil declaration rule atRule ns)
  | .rule selector nodes :: ns =>
    rule selector nodes ns (nodes_induction nil declaration rule atRule nodes)
      (nodes_induction nil declaration rule atRule ns)
  | .atRule name params nodes :: ns =>
    atRule name params nodes ns (nodes_induction nil declaration rule atRule nodes)
      (nodes_induction nil declaration rule atRule ns)

section

variable (ns : List Node)

@[simp] theorem declared_declaration (d : Declaration) :
    declared (.declaration d :: ns) = d :: declared ns := rfl

@[simp] theorem declared_rule (selector : Text) (nodes : List Node) :
    declared (.rule selector nodes :: ns) = declared ns := rfl

@[simp] theorem declared_atRule (name params : Text) (nodes : List Node) :
    declared (.atRule name params nodes :: ns) = declared ns := rfl

@[simp] theorem declared_map (ds : List Declaration) : declared (ds.map .declaration) = ds := by
  simp [declared, List.filterMap_map, Function.comp_def, Node.declaration?]

end

section

variable (around : List AtRule) (ns : List Node)

@[simp] theorem groupsBelow_nil : groupsBelow around [] = [] := by
  simp [groupsBelow]

@[simp] theorem groupsBelow_declaration (d : Declaration) :
    groupsBelow around (.declaration d :: ns) = groupsBelow around ns := by
  simp [groupsBelow, groupsNode]

@[simp] theorem groupsBelow_rule (selector : Text) (nodes : List Node) :
    groupsBelow around (.rule selector nodes :: ns) = groups around nodes ++ groupsBelow around ns := by
  simp [groupsBelow, groupsNode, groups]

@[simp] theorem groupsBelow_atRule (name params : Text) (nodes : List Node) :
    groupsBelow around (.atRule name params nodes :: ns) =
      groups (around ++ [⟨name, params⟩]) nodes ++ groupsBelow around ns := by
  simp [groupsBelow, groupsNode, groups]

theorem groupsBelow_append (ms : List Node) :
    groupsBelow around (ns ++ ms) = groupsBelow around ns ++ groupsBelow around ms := by
  induction ns with
  | nil => simp
  | cons n ns ih => simp [groupsBelow, ih]

theorem groupsBelow_map (ds : List Declaration) :
    groupsBelow around (ds.map .declaration) = [] := by
  induction ds with
  | nil => simp
  | cons d ds ih => simp [ih]

end

/-- The group of a list of siblings does not depend on its rules and at-rules. -/
theorem ownGroup_congr {ns ms : List Node} (around : List AtRule) (same : declared ns = declared ms) :
    ownGroup around ns = ownGroup around ms := by
  unfold ownGroup
  rw [same]

/-- The declarations of some groups one by one. -/
def spread (gs : List (List AtRule × List Declaration)) : List (List AtRule × Declaration) :=
  gs.flatMap fun g => g.2.map fun d => (g.1, d)

theorem spread_append (gs hs : List (List AtRule × List Declaration)) :
    spread (gs ++ hs) = spread gs ++ spread hs := List.flatMap_append

theorem spread_ownGroup (around : List AtRule) (ns : List Node) :
    spread (ownGroup around ns) = (declared ns).map fun d => (around, d) := by
  unfold spread ownGroup
  split
  · rename_i none_left
    simp [none_left]
  · simp

/-- What is nested in the first of some siblings goes behind the declarations among them. -/
theorem placed_perm_nested {inner around : List AtRule} {nodes ns : List Node}
    (first : (placed inner nodes).Perm (spread (groups inner nodes)))
    (later : (placed around ns).Perm (spread (groups around ns))) :
    (placed inner nodes ++ placed around ns).Perm
      (spread (ownGroup around ns ++ (groups inner nodes ++ groupsBelow around ns))) := by
  have both := first.append later
  rw [groups.eq_def around ns, spread_append] at both
  rw [spread_append, spread_append]
  exact both.trans (List.perm_append_comm_assoc _ _ _)

/-- The declarations of a tree are those of its groups. -/
theorem placed_perm_groups (around : List AtRule) (nodes : List Node) :
    (placed around nodes).Perm (spread (groups around nodes)) := by
  induction nodes using nodes_induction generalizing around with
  | nil => exact .nil
  | declaration d ns ih =>
    have later := (ih around).cons (around, d)
    simpa [placed, placedNode, groups, spread_append, spread_ownGroup] using later
  | rule selector nodes ns inner later =>
    have own := ownGroup_congr around (declared_rule ns selector nodes)
    simpa [placed, placedNode, groups, own] using placed_perm_nested (inner around) (later around)
  | atRule name params nodes ns inner later =>
    have own := ownGroup_congr around (declared_atRule ns name params nodes)
    simpa [placed, placedNode, groups, own] using placed_perm_nested (inner _) (later around)

theorem ownGroup_append (outer around : List AtRule) (nodes : List Node) :
    ownGroup (outer ++ around) nodes = (ownGroup around nodes).map fun g => (outer ++ g.1, g.2) := by
  unfold ownGroup
  split <;> rfl

/-- More at-rules around a tree come in front of those in it. -/
theorem groups_append (outer around : List AtRule) (nodes : List Node) :
    groups (outer ++ around) nodes = (groups around nodes).map fun g => (outer ++ g.1, g.2) := by
  have below : groupsBelow (outer ++ around) nodes =
      (groupsBelow around nodes).map fun g => (outer ++ g.1, g.2) := by
    induction nodes using nodes_induction generalizing around with
    | nil => simp
    | declaration d ns ih => simpa using ih around
    | rule selector nodes ns inner later => simp [groups, ownGroup_append, inner, later]
    | atRule name params nodes ns inner later => simp [groups, ownGroup_append, inner, later]
  simp [groups, ownGroup_append, below]

/-- A tree with the groups of another one under further at-rules has its declarations there. -/
theorem placed_perm_of_groups {outer : List AtRule} {out nodes : List Node}
    (same : groups [] out = (groups [] nodes).map fun g => (outer ++ g.1, g.2)) :
    (placed [] out).Perm ((placed [] nodes).map fun p => (outer ++ p.1, p.2)) := by
  have before := (placed_perm_groups [] nodes).map fun p => (outer ++ p.1, p.2)
  have moved : (spread (groups [] nodes)).map (fun p => (outer ++ p.1, p.2)) =
      spread (groups [] out) := by
    unfold spread
    rw [same, List.map_flatMap, List.flatMap_map]
    simp [Function.comp_def]
  rw [moved] at before
  exact (placed_perm_groups [] out).trans before.symm

section

variable (selector : Text) (ns : List Node)

@[simp] theorem nestedRules_declaration (d : Declaration) :
    nestedRules selector (.declaration d :: ns) = nestedRules selector ns := by
  simp [nestedRules, nestedNode]

@[simp] theorem nestedRules_rule (template : Text) (nodes : List Node) :
    nestedRules selector (.rule template nodes :: ns) =
      flatten (Text.replace '&' selector template) nodes ++ nestedRules selector ns := by
  simp [nestedRules, nestedNode, flatten]

@[simp] theorem nestedRules_atRule (name params : Text) (nodes : List Node) :
    nestedRules selector (.atRule name params nodes :: ns) =
      .atRule name params (flatten selector nodes) :: nestedRules selector ns := by
  simp [nestedRules, nestedNode, flatten]

end

theorem filter_isDeclaration (nodes : List Node) :
    nodes.filter Node.isDeclaration = (declared nodes).map .declaration := by
  induction nodes with
  | nil => rfl
  | cons n ns ih =>
    cases n with
    | declaration d => rw [declared_declaration, List.map_cons, ← ih]; rfl
    | rule => exact ih
    | atRule => exact ih

/-- The declarations among siblings are the body of their rule, if there are any. -/
theorem ownRule_cases (selector : Text) (nodes : List Node) :
    (ownRule selector nodes = [] ∧ declared nodes = []) ∨
      (ownRule selector nodes = [.rule selector ((declared nodes).map .declaration)] ∧
        declared nodes ≠ []) := by
  unfold ownRule
  rw [filter_isDeclaration]
  cases declared nodes with
  | nil => exact .inl ⟨rfl, rfl⟩
  | cons d ds => exact .inr ⟨rfl, by simp⟩

theorem flat_ownRule (selector : Text) (nodes : List Node) : ∀ n ∈ ownRule selector nodes, Flat n := by
  intro n member
  rcases ownRule_cases selector nodes with ⟨none_left, -⟩ | ⟨rule, nonempty⟩
  · simp [none_left] at member
  · rw [rule, List.mem_singleton] at member
    subst member
    apply Flat.rule
    · simpa using nonempty
    · simp

/-- Flattening leaves no rule without declarations and none with rules in it. -/
theorem flat_flatten (selector : Text) (nodes : List Node) : ∀ n ∈ flatten selector nodes, Flat n := by
  have nested : ∀ n ∈ nestedRules selector nodes, Flat n := by
    induction nodes using nodes_induction generalizing selector with
    | nil => simp [nestedRules]
    | declaration d ns ih => simpa using ih selector
    | rule template nodes ns inner later =>
      intro n member
      simp only [nestedRules_rule, flatten, List.mem_append] at member
      rcases member with (own | below) | rest
      · exact flat_ownRule _ nodes n own
      · exact inner _ n below
      · exact later selector n rest
    | atRule name params nodes ns inner later =>
      intro n member
      rw [nestedRules_atRule, List.mem_cons] at member
      rcases member with rfl | rest
      · apply Flat.atRule
        intro m member
        rcases List.mem_append.mp member with own | below
        · exact flat_ownRule selector nodes m own
        · exact inner selector m below
      · exact later selector n rest
  intro n member
  rcases List.mem_append.mp member with own | below
  · exact flat_ownRule selector nodes n own
  · exact nested n below

/-- Outside of the rules there are no declarations. -/
theorem declared_of_flat {nodes : List Node} (flat : ∀ n ∈ nodes, Flat n) : declared nodes = [] := by
  apply List.filterMap_eq_nil_iff.mpr
  intro n member
  cases flat n member <;> rfl

/-- Where no declaration stands outside of the rules, the outer list is no group. -/
theorem groups_of_flat {nodes : List Node} (around : List AtRule) (flat : ∀ n ∈ nodes, Flat n) :
    groups around nodes = groupsBelow around nodes := by
  simp [groups, ownGroup, declared_of_flat flat]

theorem groupsBelow_ownRule (around : List AtRule) (selector : Text) (nodes : List Node) :
    groupsBelow around (ownRule selector nodes) = ownGroup around nodes := by
  rcases ownRule_cases selector nodes with ⟨rule, none_left⟩ | ⟨rule, -⟩
  · simp [rule, ownGroup, none_left]
  · have own := ownGroup_congr around (declared_map (declared nodes))
    rw [rule, groupsBelow_rule, groups, groupsBelow_map, groupsBelow_nil, own]
    simp

/-- The rules that come from nested ones hold the same groups. -/
theorem groupsBelow_nestedRules (around : List AtRule) (selector : Text) (nodes : List Node) :
    groupsBelow around (nestedRules selector nodes) = groupsBelow around nodes := by
  induction nodes using nodes_induction generalizing around selector with
  | nil => simp [nestedRules]
  | declaration d ns ih => simpa using ih around selector
  | rule template nodes ns inner later =>
    rw [nestedRules_rule, flatten, groupsBelow_append, groupsBelow_append, groupsBelow_ownRule, inner,
      later, groupsBelow_rule, groups]
  | atRule name params nodes ns inner later =>
    rw [nestedRules_atRule, groupsBelow_atRule, groups_of_flat _ (flat_flatten selector nodes), flatten,
      groupsBelow_append, groupsBelow_ownRule, inner, later, groupsBelow_atRule, groups]

/-- The groups stay as they are when nested rules are flattened. -/
theorem groups_flatten (around : List AtRule) (selector : Text) (nodes : List Node) :
    groups around (flatten selector nodes) = groups around nodes := by
  rw [groups_of_flat around (flat_flatten selector nodes), flatten, groupsBelow_append,
    groupsBelow_ownRule, groupsBelow_nestedRules, groups]

end AtomicCss.Css
