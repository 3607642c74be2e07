import AtomicCss.Proofs.Migration.Meaning
import AtomicCss.Proofs.Theme.Lookup
import AtomicCss.Proofs.Variants.StaticReach

/-! The two variants for a breakpoint of the theme. One is registered under the name of the
breakpoint while the system is built, the other one looks the name up behind `min-` whenever it
is used. A name with dashes is read in different ways, as a root with a value or as a compound,
but the registry puts it together again in all of them. -/
namespace AtomicCss.DesignSystem.Builder
open Text Theme

/-- The condition that the page is at least so wide. -/
def atLeast (width : Text) : Step :=
  .atRule { name := "media", params := "(width >= " ++ width ++ ")" }

theorem parse_atLeast (width : Text) :
    Step.parse ("@media (width >= " ++ width ++ ")") = atLeast width := by
  -- The last parenthesis is visible, so that trimming leaves blanks of the width alone.
  have template : trim ("@media (width >= ".toList ++ width ++ ")".toList) =
      "@media (width >= ".toList ++ width ++ ")".toList :=
    trim_between (b := []) (by rintro d ⟨⟩; rfl) rfl
  have query : trim (" (width >= ".toList ++ width ++ ")".toList) =
      "(width >= ".toList ++ width ++ ")".toList :=
    trim_between (a := "(width >= ".toList ++ width) (b := []) (by rintro d ⟨⟩; rfl) rfl
  rw [Step.parse, template]
  exact congrArg (fun params => Step.atRule ⟨"media", params⟩) query

section

variable {vs : Variants} {name : Text}

/-- A breakpoint is registered, unless its name is taken or no variant's. -/
theorem addBreakpoint_cases (vs : Variants) (name width : Text) :
    (vs.has name = true ∨ isVariantName name = false) ∧ addBreakpoint vs (name, width) = vs ∨
      vs.has name = false ∧ isVariantName name = true ∧
        addBreakpoint vs (name, width) = { vs with statics := (name, [atLeast width]) :: vs.statics } := by
  unfold addBreakpoint
  dsimp only
  cases taken : vs.has name with
  | true => exact .inl ⟨.inl rfl, if_pos rfl⟩
  | false =>
    rw [if_neg (by simp), Variants.registerStatic, checkVariantName]
    cases valid : isVariantName name with
    | true =>
      refine .inr ⟨rfl, rfl, ?_⟩
      rw [← parse_atLeast]
      rfl
    | false => exact .inl ⟨.inr rfl, rfl⟩

theorem has_eq_false : vs.has name = false ↔ vs.statics.lookup name = none ∧
    vs.functionals.lookup name = none ∧ vs.compounds.lookup name = none := by
  simp [Variants.has, and_assoc]

/-- Breakpoints are static variants. -/
theorem dynamics_addBreakpoint (vs : Variants) (breakpoint : Text × Text) :
    (addBreakpoint vs breakpoint).functionals = vs.functionals ∧
      (addBreakpoint vs breakpoint).compounds = vs.compounds := by
  rcases addBreakpoint_cases vs breakpoint.1 breakpoint.2 with ⟨-, same⟩ | ⟨-, -, same⟩ <;> rw [same] <;>
    exact ⟨rfl, rfl⟩

theorem dynamics_breakpoints (vs : Variants) (breakpoints : List (Text × Text)) :
    (breakpoints.foldl addBreakpoint vs).functionals = vs.functionals ∧
      (breakpoints.foldl addBreakpoint vs).compounds = vs.compounds := by
  induction breakpoints generalizing vs with
  | nil => exact ⟨rfl, rfl⟩
  | cons b breakpoints ih =>
    rw [List.foldl_cons, (ih _).1, (ih _).2]
    exact dynamics_addBreakpoint vs b

/-- What is registered keeps its steps. -/
theorem lookup_kept {steps : List Step} (known : vs.statics.lookup name = some steps)
    (breakpoints : List (Text × Text)) :
    (breakpoints.foldl addBreakpoint vs).statics.lookup name = some steps := by
  induction breakpoints generalizing vs with
  | nil => exact known
  | cons b breakpoints ih =>
    apply ih
    rcases addBreakpoint_cases vs b.1 b.2 with ⟨-, same⟩ | ⟨free, -, same⟩
    · rwa [same]
    · have other : (name == b.1) = false := by
        rw [beq_eq_false_iff_ne]
        rintro rfl
        rw [(has_eq_false.mp free).1] at known
        cases known
      rw [same, List.lookup_cons, other]
      exact known

/-- A new name gets the first width that stands under it, if a variant can have it. -/
theorem lookup_breakpoints (free : vs.has name = false) (breakpoints : List (Text × Text)) :
    (breakpoints.foldl addBreakpoint vs).statics.lookup name =
      if isVariantName name then (breakpoints.lookup name).map fun width => [atLeast width] else none := by
  induction breakpoints generalizing vs with
  | nil => simp [(has_eq_false.mp free).1]
  | cons b breakpoints ih =>
    obtain ⟨n, width⟩ := b
    rw [List.foldl_cons, List.lookup_cons]
    by_cases same : name = n
    · subst same
      rw [beq_self_eq_true]
      rcases addBreakpoint_cases vs name width with ⟨taken, kept⟩ | ⟨-, valid, added⟩
      · have invalid : isVariantName name = false := taken.resolve_left (by simp [free])
        rw [kept, ih free, invalid]
        rfl
      · rw [valid, added]
        exact lookup_kept (by simp) breakpoints
    · have other : (name == n) = false := beq_eq_false_iff_ne.mpr same
      have still : (addBreakpoint vs (n, width)).has name = false := by
        rcases addBreakpoint_cases vs n width with ⟨-, kept⟩ | ⟨-, -, added⟩
        · rwa [kept]
        · rw [added, has_eq_false, List.lookup_cons, other]
          exact has_eq_false.mp free
      rw [other, ih still]

end

theorem lookup_eq_none_of_lead {α : Type} {l : List (Text × α)} {lead : Text}
    (free : ∀ name ∈ l.map Prod.fst, ¬ lead <+: name) (behind : Text) : l.lookup (lead ++ behind) = none := by
  rw [List.lookup_eq_none_iff]
  intro entry member
  rw [bne_iff_ne]
  rintro same
  exact free _ (List.mem_map.mpr ⟨entry, member, rfl⟩) ⟨behind, same⟩

/-- No standard variant has a name behind `min-`. -/
theorem has_min (behind : Text) : Standard.variants.has ("min-".toList ++ behind) = false :=
  has_eq_false.mpr ⟨lookup_eq_none_of_lead (by decide) behind, lookup_eq_none_of_lead (by decide) behind,
    lookup_eq_none_of_lead (by decide) behind⟩

/-- A name behind `min-` is read as a root with a value. -/
theorem functional_of_spelt_min {key : Text} {v : Variant}
    (spelt : Variant.MainSpelt ("min-".toList ++ key) none v) (bracketless : '[' ∉ key) :
    ∃ root value, v = .functional root (some (.named value)) none ∧
      root ++ '-' :: value = "min-".toList ++ key := by
  generalize whole : "min-".toList ++ key = t at spelt
  cases spelt with
  | static shape undashed =>
    subst whole
    simp at undashed
  | named => exact ⟨_, _, rfl, rfl⟩
  | @arbitrary root inner =>
    have bracket : '[' ∈ "min-".toList ++ key := by
      rw [whole]
      simp
    simp [bracketless] at bracket
  | compound m known =>
    have undashed : '-' ∉ "min".toList := by decide
    have other : ∀ root ∈ compoundRoots, root ≠ "min" ∧ ¬ "min-".toList <+: root := by decide
    rcases cut_behind_first undashed whole with same | behind
    · exact absurd same (other _ known).1
    · exact absurd behind (other _ known).2

/-- Behind `min-` the name of a breakpoint is that of a token, whose value is the width. -/
theorem steps_min {theme : Theme} {vs : Variants} {key value : Text} {v : Variant}
    (standard : vs.functionals = Standard.functionals)
    (alone : vs.statics.lookup ("min-".toList ++ key) = none)
    (spelt : Variant.MainSpelt ("min-".toList ++ key) none v) (bracketless : '[' ∉ key)
    (found : theme.resolveValue (some key) ["--breakpoint"] = some value) :
    vs.steps theme v = some [atLeast value] := by
  obtain ⟨root, rest, rfl, whole⟩ := functional_of_spelt_min spelt bracketless
  have recut : vs.steps theme (.functional root (some (.named rest)) none) =
      vs.steps theme (.functional "min" (some (.named key)) none) := by
    simp only [Variants.steps, whole]
    rfl
  have free : Migration.Unshadowed vs theme "min" key := by
    refine ⟨alone, fun r w cut other => ?_⟩
    obtain ⟨behind, rfl⟩ := (cut_behind_first (by decide) cut).resolve_left other
    rw [Variants.functionalSteps, standard, lookup_eq_none_of_lead (by decide) behind]
    rfl
  have handler : vs.functionals.lookup "min".toList = some (Standard.width ">=") := by
    rw [standard]
    rfl
  rw [recut, Migration.steps_of_unshadowed free, Variants.functionalSteps, handler]
  simp only [Option.bind_some, Standard.width, Standard.breakpointWidth, found]
  rfl

section

variable {theme : Theme}

theorem dynamics_standard (theme : Theme) :
    (standard theme).build.variants.functionals = Standard.functionals ∧
      (standard theme).build.variants.compounds = Standard.compounds :=
  dynamics_breakpoints Standard.variants (theme.namespaceEntries "--breakpoint")

/-- The static variants that a system has besides the standard ones are its breakpoints. -/
theorem lookup_standard (inStep : InStep theme) {name : Text} (free : Standard.variants.has name = false)
    (other : name ≠ defaultKey) (some_left : name ≠ []) :
    (standard theme).build.variants.statics.lookup name =
      if isVariantName name then (theme.get? ("--breakpoint-" ++ name)).map fun width => [atLeast width]
      else none := by
  have known := lookup_breakpoints free (theme.namespaceEntries "--breakpoint")
  rw [inStep.lookup_namespaceEntries _ other some_left] at known
  exact known

theorem valid_of_registered (inStep : InStep theme) {name : Text}
    (free : Standard.variants.has name = false) (other : name ≠ defaultKey) (some_left : name ≠ [])
    (registered : (standard theme).build.variants.has name = true) : isVariantName name = true := by
  by_contra invalid
  have static := lookup_standard inStep free other some_left
  rw [if_neg invalid] at static
  obtain ⟨-, functional, compound⟩ := has_eq_false.mp free
  obtain ⟨functionals, compounds⟩ := dynamics_standard theme
  have absent : (standard theme).build.variants.has name = false := by
    rw [has_eq_false, functionals, compounds]
    exact ⟨static, functional, compound⟩
  rw [absent] at registered
  cases registered

end

/-- A name that is registered for a breakpoint, and the same name behind `min-`, stand for the same
condition, that the page is at least as wide as the token of the breakpoint says. -/
theorem breakpoint_agrees_with_min (changes : List Change) {key value : Text} {v w : Variant}
    (other : key ≠ defaultKey) (pointless : '.' ∉ key)
    (present : (run changes).get? ("--breakpoint-" ++ key) = some value)
    (free : Standard.variants.has key = false)
    (alone : (run changes).contains ("--breakpoint-min-" ++ key) = false)
    (read : Variant.parse? key = some v) (read_min : Variant.parse? ("min-" ++ key) = some w)
    (registered : (standard (run changes)).build.variants.has key = true) :
    let system := (standard (run changes)).build
    system.variants.steps system.theme v = some [atLeast value] ∧
      system.variants.steps system.theme w = some [atLeast value] := by
  intro system
  have inStep : InStep (run changes) := (run_from inStep_empty changes).1
  have some_left : key ≠ [] := by
    rintro rfl
    cases read
  have valid := valid_of_registered inStep free other some_left registered
  obtain ⟨characters, -, -⟩ := @Variants.characters_of_checkVariantName key (if_pos valid)
  have bracketless : '[' ∉ key := characters.not_mem (by decide)
  constructor
  · have static : system.variants.statics.lookup key = some [atLeast value] := by
      rw [lookup_standard inStep free other some_left, if_pos valid, present]
      rfl
    exact Variants.steps_of_spelt ((Variants.parse_name characters).mp read) bracketless static
  · have behind : NameLike ("min-".toList ++ key) :=
      NameLike.append (List.all_eq_true.mp (by decide)) characters
    have absent : (run changes).get? ("--breakpoint-".toList ++ ("min-".toList ++ key)) = none := by
      rwa [inStep.contains_eq_isSome, Option.isSome_eq_false_iff, Option.isNone_iff_eq_none] at alone
    have static : system.variants.statics.lookup ("min-".toList ++ key) = none := by
      rw [lookup_standard inStep (has_min key) nofun nofun, absent]
      split <;> rfl
    have width : (run changes).resolveValue (some key) ["--breakpoint"] = some value := by
      rw [inStep.resolveValue_single, tokenName_part other pointless]
      exact present
    exact steps_min (dynamics_standard _).1 static ((Variants.parse_name behind).mp read_min) bracketless width

/-- A breakpoint with dashes whose name is read as a compound, in a theme where another breakpoint
is called like its inner variant. -/
theorem compound_breakpoint_agrees :
    let changes := [Change.declare "--breakpoint-x" "10rem", .declare "--breakpoint-in-x" "20rem"]
    let system := (standard (run changes)).build
    "in-x".toList ≠ defaultKey ∧ '.' ∉ "in-x".toList ∧
    (run changes).get? "--breakpoint-in-x" = some "20rem" ∧ Standard.variants.has "in-x" = false ∧
    (run changes).contains "--breakpoint-min-in-x" = false ∧
    Variant.parse? "in-x" = some (.compound "in" none (.static "x")) ∧
    Variant.parse? "min-in-x" = some (.functional "min-in" (some (.named "x")) none) ∧
    system.variants.has "in-x" = true ∧
    system.variants.steps system.theme (.compound "in" none (.static "x")) = some [atLeast "20rem"] ∧
    system.variants.steps system.theme (.functional "min-in" (some (.named "x")) none) =
      some [atLeast "20rem"] := by
  intro changes system
  have other : "in-x".toList ≠ defaultKey := by decide
  have pointless : '.' ∉ "in-x".toList := by decide
  have present : (run changes).get? "--breakpoint-in-x" = some "20rem" := by decide
  have free : Standard.variants.has "in-x" = false := by decide
  have alone : (run changes).contains "--breakpoint-min-in-x" = false := by decide
  have read : Variant.parse? "in-x" = some (.compound "in" none (.static "x")) := by decide +kernel
  have read_min : Variant.parse? "min-in-x" = some (.functional "min-in" (some (.named "x")) none) := by
    decide +kernel
  have registered : system.variants.has "in-x" = true := by decide
  exact ⟨other, pointless, present, free, alone, read, read_min, registered,
    breakpoint_agrees_with_min changes other pointless present free alone read read_min registered⟩

end AtomicCss.DesignSystem.Builder
