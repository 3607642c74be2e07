import AtomicCss.Proofs.Css.Trails
import AtomicCss.Proofs.Step.Distribution
import AtomicCss.Proofs.Step.Relation
import AtomicCss.Proofs.Variants.Application

/-! The selectors of nested rules under variants. The steps of the variants are composed
branch by branch, but a nested rule takes the composed selector as it stands. A list therefore
reaches the branches of a nested rule only where replacing and composing agree. -/
namespace AtomicCss.Variants
open Text Step

/-- The steps of all variants, one after the other. -/
def chain (vs : Variants) (theme : Theme) (variants : List Variant) : List Step :=
  variants.flatMap fun v => (vs.steps theme v).getD []

/-- The selector of the rule for a class under variants. -/
def ruleSelector (vs : Variants) (theme : Theme) (variants : List Variant) (class_ : Text) : Text :=
  replace '&' ('.' :: Css.escapeClass class_) (Composition.ofSteps (vs.chain theme variants)).selector

theorem trails_surround (atRules : List AtRule) {nodes : List Css.Node} (flat : ∀ n ∈ nodes, Css.Flat n) :
    Css.trails [] (surround atRules nodes) = Css.trails [] nodes := by
  induction atRules with
  | nil => rfl
  | cons header atRules ih =>
    have outermost : surround (header :: atRules) nodes =
        [.atRule header.name header.params (surround atRules nodes)] := rfl
    rw [Css.trails_of_flat [] (flat_surround _ flat), outermost, Css.trailsBelow_atRule, ih]
    simp

/-- A class whose selector ends visibly is one branch. -/
theorem branch_class {class_ : Text}
    (visible : trim ('.' :: Css.escapeClass class_) = '.' :: Css.escapeClass class_) :
    Branch ('.' :: Css.escapeClass class_) where
  solid := (Solid.neutral (by decide) (by decide)).append (solid_escapeClass class_)
  trimmed := visible
  nonempty := by simp

/-- The class takes the place of each `&` in the selector that readable steps make. -/
theorem standing_ruleSelector {vs : Variants} {theme : Theme} {variants : List Variant} {class_ : Text}
    (legible : Legible (vs.chain theme variants))
    (visible : trim ('.' :: Css.escapeClass class_) = '.' :: Css.escapeClass class_) :
    Standing (vs.ruleSelector theme variants class_) := by
  rw [ruleSelector, Composition.ofSteps_selector legible, replace_joinWith _ _ rfl]
  refine standing_joinWith (by simpa using compose_ne_nil _ (by simp)) fun o member => ?_
  obtain ⟨b, inside, rfl⟩ := List.mem_map.mp member
  exact (pattern_of_mem_compose legible inside).replace_branch (branch_class visible)

theorem standing_nest {s : Text} (standing : Standing s) {templates : List Text}
    (readable : ∀ t ∈ templates, Readable t ∧ trim t = t) : Standing (Css.nest s templates) := by
  induction templates generalizing s with
  | nil => exact standing
  | cons t templates ih =>
    obtain ⟨first, others⟩ := List.forall_mem_cons.mp readable
    exact ih (standing.replace first.1 first.2) others

/-- Under known variants each list of siblings becomes a rule, and the rules around it are put
into one another by plain replacement. -/
theorem trails_apply {vs : Variants} {theme : Theme} {variants : List Variant} (known : vs.Known theme variants)
    (class_ : Text) (nodes : List Css.Node) :
    ∃ out, vs.apply theme variants class_ nodes = some out ∧
      Css.trails [] out = (Css.trails [] nodes).map fun trail =>
        ([Css.nest (vs.ruleSelector theme variants class_) trail.1], trail.2) := by
  let selector := vs.ruleSelector theme variants class_
  have steps : vs.allSteps theme variants = some (vs.chain theme variants) := allSteps_eq_some known
  refine ⟨surround (Composition.ofSteps (vs.chain theme variants)).atRules (Css.flatten selector nodes), ?_, ?_⟩
  · simp only [apply, steps, Option.map_some, selector, ruleSelector]
  · rw [trails_surround _ (Css.flat_flatten selector nodes), Css.trails_flatten]
    rfl

/-- Under known variants each list of siblings becomes a rule, and the rules around it are put
into one another by plain replacement. Where the templates are readable, the branches of a nested rule
are those of composition exactly if the selector around it has one branch, or the nested rule is
nothing but `&`. -/
theorem nested_rule_spreads_iff (vs : Variants) (theme : Theme) (variants : List Variant)
    (class_ : Text) (nodes : List Css.Node) (known : vs.Known theme variants) :
    ∃ out, vs.apply theme variants class_ nodes = some out ∧
      Css.trails [] out = (Css.trails [] nodes).map (fun trail =>
        ([Css.nest (vs.ruleSelector theme variants class_) trail.1], trail.2)) ∧
      (trim ('.' :: Css.escapeClass class_) = '.' :: Css.escapeClass class_ →
        (∀ template, .selector template ∈ vs.chain theme variants → Readable template) →
        ∀ trail ∈ Css.trails [] nodes, (∀ t ∈ trail.1, Readable t ∧ trim t = t) →
          ∀ outer template, trail.1 = outer ++ [template] →
            (Spreads (Css.nest (vs.ruleSelector theme variants class_) outer) template
                (Css.nest (vs.ruleSelector theme variants class_) trail.1) ↔
              (branches (Css.nest (vs.ruleSelector theme variants class_) outer)).length = 1 ∨
                ∀ b ∈ branches template, b = ['&'])) := by
  obtain ⟨out, applied, trails⟩ := trails_apply known class_ nodes
  refine ⟨out, applied, trails, ?_⟩
  intro visible legible trail _ readable outer template parts
  rw [parts] at readable ⊢
  obtain ⟨around, last⟩ := List.forall_mem_append.mp readable
  rw [Css.nest_concat]
  exact (standing_nest (standing_ruleSelector legible visible) around).spreads_iff
    (last template (by simp)).1

/-- A list in the template reaches the one branch around it, and a list around `&, &` is written twice. -/
theorem nested_lists_spread :
    let vs : Variants :=
      { statics := [("hover", [.atRule ⟨"media", "(hover: hover)"⟩, .selector "&:hover"])]
        functionals := [], compounds := [] }
    let nodes : List Css.Node :=
      [.rule "&::before, & > :is(p, a)" [Css.declare "color" "red",
        .rule "&, &" [Css.declare "gap" "0"]]]
    let selector := vs.ruleSelector .empty [.static "hover"] "x"
    vs.Known .empty [.static "hover"] ∧
      ∃ out, vs.apply .empty [.static "hover"] "x" nodes = some out ∧
        Spreads selector "&::before, & > :is(p, a)" (Css.nest selector ["&::before, & > :is(p, a)"]) ∧
        Spreads (Css.nest selector ["&::before, & > :is(p, a)"]) "&, &"
          (Css.nest selector ["&::before, & > :is(p, a)", "&, &"]) := by
  intro vs nodes selector
  have known : vs.Known .empty [.static "hover"] := by
    intro v member
    rw [List.mem_singleton.mp member]
    exact ⟨_, rfl⟩
  have legible : ∀ template, .selector template ∈ vs.chain .empty [.static "hover"] → Readable template := by
    intro template member
    have only : vs.chain .empty [.static "hover"] =
        [.atRule ⟨"media", "(hover: hover)"⟩, .selector "&:hover"] := rfl
    simp only [only, List.mem_cons, reduceCtorEq, Step.selector.injEq, List.not_mem_nil, or_false,
      false_or] at member
    rw [member]
    decide
  obtain ⟨out, applied, -, spreads⟩ :=
    nested_rule_spreads_iff vs .empty [.static "hover"] "x" nodes known
  refine ⟨known, out, applied, ?_, ?_⟩
  · exact (spreads (by decide) legible (["&::before, & > :is(p, a)"], [⟨"color", "red", false⟩]) (by decide)
      (by decide) [] _ rfl).mpr (.inl (by decide))
  · exact (spreads (by decide) legible (["&::before, & > :is(p, a)", "&, &"], [⟨"gap", "0", false⟩])
      (by decide) (by decide) ["&::before, & > :is(p, a)"] _ rfl).mpr (.inr (by decide))

/-- Of the two branches of a marker only the last one is hovered. -/
theorem first_branch_unnested :
    let vs : Variants :=
      { statics := [("marker", [.selector "& *::marker, &::marker"])], functionals := [], compounds := [] }
    vs.apply .empty [.static "marker"] "x" [.rule "&:hover" [Css.declare "color" "red"]] =
        some [.rule ".x *::marker, .x::marker:hover" [Css.declare "color" "red"]] ∧
      ¬ Spreads ".x *::marker, .x::marker" "&:hover" ".x *::marker, .x::marker:hover" := by
  decide

end AtomicCss.Variants
