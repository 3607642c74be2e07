import AtomicCss.Proofs.Css.Nesting
import AtomicCss.Variants

/-! Applying variants keeps every declaration once. It ends up in a rule of
declarations only, under the at-rules of all variants from the outside in and
then those that it stood under before. -/
namespace AtomicCss

/-- The at-rule that a step puts around the finished rule. -/
def Step.header? : Step → Option AtRule
  | .selector _ => none
  | .atRule header => some header

namespace Composition

/-- The at-rules of the steps are kept in their order. -/
theorem ofSteps_atRules (steps : List Step) :
    (ofSteps steps).atRules = steps.filterMap Step.header? := by
  have added (c : Composition) :
      (steps.foldl add c).atRules = c.atRules ++ steps.filterMap Step.header? := by
    induction steps generalizing c with
    | nil => simp
    | cons step steps ih =>
      rw [List.foldl_cons, ih]
      cases step with
      | selector template => rfl
      | atRule header => simp [add, Step.header?]
  exact added self

end Composition

namespace Variants

/-- The at-rules of all variants, those of the first variant outermost. -/
def conditions (vs : Variants) (theme : Theme) (variants : List Variant) : List AtRule :=
  variants.flatMap fun v => ((vs.steps theme v).getD []).filterMap Step.header?

/-- Every variant is known to the registry. -/
def Known (vs : Variants) (theme : Theme) (variants : List Variant) : Prop :=
  ∀ v ∈ variants, ∃ steps, vs.steps theme v = some steps

theorem allSteps_eq_some {vs : Variants} {theme : Theme} {variants : List Variant}
    (known : vs.Known theme variants) :
    vs.allSteps theme variants =
      some (variants.flatMap fun v => (vs.steps theme v).getD []) := by
  induction variants with
  | nil => rfl
  | cons v variants ih =>
    obtain ⟨steps, first⟩ := known v (by simp)
    obtain ⟨each, found, same⟩ := Option.map_eq_some_iff.mp
      (ih fun w member => known w (List.mem_cons_of_mem v member))
    have all : (v :: variants).mapM (vs.steps theme) = some (steps :: each) := by
      simp [List.mapM_cons, first, found]
    simp [allSteps, all, first, same]

theorem flat_surround (atRules : List AtRule) {nodes : List Css.Node} (flat : ∀ n ∈ nodes, Css.Flat n) :
    ∀ n ∈ surround atRules nodes, Css.Flat n := by
  induction atRules with
  | nil => exact flat
  | cons header atRules ih =>
    intro n member
    rw [List.mem_singleton.mp member]
    exact .atRule ih

theorem groups_surround (around atRules : List AtRule) {nodes : List Css.Node}
    (flat : ∀ n ∈ nodes, Css.Flat n) :
    Css.groups around (surround atRules nodes) = Css.groups (around ++ atRules) nodes := by
  induction atRules generalizing around with
  | nil => simp [surround]
  | cons header atRules ih =>
    have outermost : surround (header :: atRules) nodes =
        [.atRule header.name header.params (surround atRules nodes)] := rfl
    rw [Css.groups_of_flat around (flat_surround _ flat), outermost, Css.groupsBelow_atRule, ih]
    simp

/-- The groups of flattened nodes are put under the at-rules. -/
theorem groups_surround_flatten (atRules : List AtRule) (selector : Text) (nodes : List Css.Node) :
    Css.groups [] (surround atRules (Css.flatten selector nodes)) =
      (Css.groups [] nodes).map fun g => (atRules ++ g.1, g.2) := by
  rw [groups_surround [] _ (Css.flat_flatten selector nodes), Css.groups_flatten, List.nil_append]
  simpa using Css.groups_append atRules [] nodes

/-- The declarations that are applied are the given ones. -/
theorem declarations_apply {vs : Variants} {theme : Theme} {variants : List Variant} {class_ : Text}
    {nodes out : List Css.Node} (applied : vs.apply theme variants class_ nodes = some out) :
    ((Css.placed [] out).map Prod.snd).Perm ((Css.placed [] nodes).map Prod.snd) := by
  obtain ⟨steps, -, rfl⟩ := Option.map_eq_some_iff.mp applied
  refine ((Css.placed_perm_of_groups (groups_surround_flatten _ _ nodes)).map Prod.snd).trans ?_
  rw [List.map_map]
  exact .refl _

/-- Applying known variants gives rules of declarations only. The declarations, each with the
at-rules around it, are those of the given nodes with the at-rules of the variants around them, and
each rule takes the declarations of one list of siblings in their order. -/
theorem apply_keeps_declarations (vs : Variants) (theme : Theme) (variants : List Variant)
    (class_ : Text) (nodes : List Css.Node) (known : vs.Known theme variants) :
    ∃ out, vs.apply theme variants class_ nodes = some out ∧ (∀ n ∈ out, Css.Flat n) ∧
      (Css.placed [] out).Perm
        ((Css.placed [] nodes).map fun p => (vs.conditions theme variants ++ p.1, p.2)) ∧
      Css.groups [] out =
        (Css.groups [] nodes).map fun g => (vs.conditions theme variants ++ g.1, g.2) := by
  have steps := allSteps_eq_some known
  have conditions : (Composition.ofSteps (variants.flatMap fun v => (vs.steps theme v).getD [])).atRules =
      vs.conditions theme variants := by
    rw [Composition.ofSteps_atRules, List.filterMap_flatMap]
    rfl
  let selector := Text.replace '&' ('.' :: Css.escapeClass class_)
    (Composition.ofSteps (variants.flatMap fun v => (vs.steps theme v).getD [])).selector
  have groups := groups_surround_flatten (vs.conditions theme variants) selector nodes
  refine ⟨surround (vs.conditions theme variants) (Css.flatten selector nodes), ?_, ?_, ?_, groups⟩
  · simp only [apply, steps, Option.map_some, conditions, selector]
  · exact flat_surround _ (Css.flat_flatten selector nodes)
  · exact Css.placed_perm_of_groups groups

theorem nested_rules_keep_declarations :
    let vs : Variants :=
      { statics := [("hover", [.atRule ⟨"media", "(hover: hover)"⟩, .selector "&:hover"]),
          ("wide", [.atRule ⟨"media", "(width >= 40rem)"⟩])]
        functionals := [], compounds := [] }
    let variants : List Variant := [.static "wide", .static "hover"]
    let nodes : List Css.Node :=
      [Css.declare "color" "red", .rule "& > a" [Css.declare "color" "blue"],
        .atRule "supports" "(gap: 0)" [Css.declare "gap" "0", .rule "&:focus" []],
        Css.declare "color" "green"]
    vs.Known .empty variants ∧
      ∃ out, vs.apply .empty variants "wide:hover:x" nodes = some out ∧ (∀ n ∈ out, Css.Flat n) ∧
        (Css.placed [] out).Perm
          ((Css.placed [] nodes).map fun p => (vs.conditions .empty variants ++ p.1, p.2)) ∧
        Css.groups [] out =
          (Css.groups [] nodes).map fun g => (vs.conditions .empty variants ++ g.1, g.2) := by
  intro vs variants nodes
  have known : vs.Known .empty variants := by
    intro v member
    rcases List.mem_cons.mp member with rfl | member
    · exact ⟨_, rfl⟩
    · rw [List.mem_singleton.mp member]
      exact ⟨_, rfl⟩
  exact ⟨known, apply_keeps_declarations vs .empty variants "wide:hover:x" nodes known⟩

end Variants
end AtomicCss
