import AtomicCss.Proofs.Text.Dangling
import AtomicCss.Proofs.Text.Replacement
import AtomicCss.Proofs.Text.Trim
import AtomicCss.Proofs.Variants.Application
import AtomicCss.Step

/-! Composing the steps of a variant in groups. A selector is a list of branches, and each of
them goes through every branch of a template. What can be read in a template can be
read in the outcome as well, so that nothing is lost when the selector of a group is
written out and used as one step. -/
namespace AtomicCss.Step
open Text

/-- The branches of a selector list, without the blank characters around them. -/
def branches (t : Text) : List Text := (segment ',' t).map trim

/-- Every outer branch through every branch of a template, the outer ones first. -/
def fill (templates outers : List Text) : List Text :=
  outers.flatMap fun outer => templates.map (replace '&' outer)

theorem substitute_eq (template selector : Text) :
    substitute template selector = joinWith ", " (fill (branches template) (branches selector)) := by
  simp [substitute, fill, branches, List.flatMap_map, List.map_map, Function.comp_def]

/-- Filling in one after the other is filling in what is filled in. -/
theorem fill_fill (a b c : List Text) : fill a (fill b c) = fill (fill a b) c := by
  simp only [fill, List.flatMap_assoc, List.flatMap_map, List.map_flatMap, List.map_map,
    Function.comp_def, replace_replace]

theorem fill_self (templates : List Text) : fill templates [['&']] = templates := by
  have same : replace '&' ['&'] = id := funext (replace_self '&')
  simp [fill, same]

theorem self_fill (outers : List Text) : fill [['&']] outers = outers := by
  have alone (outer : Text) : replace '&' outer ['&'] = outer := by simp [replace_here]
  simp [fill, alone]

/-- A text that stands as one branch in a list: nothing in it separates branches, and
trimming leaves it as it is. -/
structure Branch (t : Text) : Prop where
  solid : Solid ',' t
  trimmed : trim t = t
  nonempty : t ≠ []

/-- A branch in which each `&` can be replaced. -/
structure Pattern (t : Text) : Prop extends Branch t where
  exposed : Exposed '&' .plain t

theorem Pattern.replace_branch {b o : Text} (pattern : Pattern b) (branch : Branch o) :
    Branch (replace '&' o b) where
  solid := pattern.solid.replace (by decide) (by decide) pattern.exposed branch.solid
  trimmed := trim_replace branch.trimmed branch.nonempty pattern.trimmed
  nonempty := replace_ne_nil '&' o branch.nonempty pattern.nonempty

theorem Pattern.replace {b o : Text} (pattern : Pattern b) (inner : Pattern o) :
    Pattern (Text.replace '&' o b) :=
  ⟨pattern.replace_branch inner.toBranch,
    pattern.exposed.replace (by decide) inner.solid.closed inner.exposed⟩

theorem pattern_self : Pattern ['&'] :=
  ⟨⟨.neutral (by decide) (by decide), rfl, by simp⟩, by decide⟩

theorem joinWith_spaced (first : Text) (others : List Text) :
    joinWith ", " (first :: others) = joinWith [','] (first :: others.map (' ' :: ·)) := by
  induction others generalizing first with
  | nil => rfl
  | cons next others ih =>
    rw [joinWith_cons_cons, ih, List.map_cons, joinWith_cons_cons]
    cases others with
    | nil => simp [joinWith, List.intercalate]
    | cons third others => simp [joinWith_cons_cons]

theorem solid_spaced {first : Text} {others : List Text} (each : ∀ o ∈ first :: others, Branch o) :
    ∀ piece ∈ first :: others.map (' ' :: ·), Solid ',' piece := by
  obtain ⟨head, tail⟩ := List.forall_mem_cons.mp each
  refine List.forall_mem_cons.mpr ⟨head.solid, fun piece member => ?_⟩
  obtain ⟨o, inside, rfl⟩ := List.mem_map.mp member
  exact (Solid.neutral (by decide) (by decide)).append (tail o inside).solid

/-- Branches that are written as a list are read back from it. -/
theorem branches_joinWith {os : List Text} (some_branch : os ≠ []) (each : ∀ o ∈ os, Branch o) :
    branches (joinWith ", " os) = os := by
  obtain ⟨first, others, rfl⟩ := List.exists_cons_of_ne_nil some_branch
  obtain ⟨head, tail⟩ := List.forall_mem_cons.mp each
  have blank : ∀ c ∈ [' '], isBlank c = true := by
    intro c space
    rw [List.mem_singleton.mp space]
    rfl
  have spaceless (o : Text) (member : o ∈ others) : trim (' ' :: o) = o := by
    have padded : trim ([' '] ++ (o ++ [])) = o := trim_of_parts (tail o member).trimmed blank (by simp)
    rwa [List.append_nil, List.singleton_append] at padded
  have kept : others.map (trim ∘ (' ' :: ·)) = others :=
    (List.map_congr_left spaceless).trans (List.map_id others)
  rw [branches, joinWith_spaced, segment_joinWith (by decide) (solid_spaced each), List.map_cons, head.trimmed,
    List.map_map, kept]

/-- Trimming takes no escaped character away where no backslash stands in front of a blank one. -/
theorem not_dangling_trim {t : Text} (closed : Closed t)
    (shown : ∀ inner c rest, t = inner ++ '\\' :: c :: rest → isBlank c = false) :
    ¬ Dangling (trim t) := by
  intro dangling
  obtain ⟨before, behind, cut, blank, blank'⟩ := trim_parts t
  obtain ⟨inner, last⟩ := dangling.backslash
  cases behind with
  | nil =>
    have unfinished : Dangling t := by
      rw [Dangling, cut, List.append_nil, Scan.after_append, track_scan (track_blank blank [])]
      exact dangling
    exact (closed_iff_not_dangling closed.balanced).mp closed unfinished
  | cons c behind =>
    have place : t = (before ++ inner) ++ '\\' :: c :: behind := by
      conv => lhs; rw [cut, last]
      simp
    have visible := shown _ _ _ place
    rw [blank' c List.mem_cons_self] at visible
    cases visible

/-- A template whose brackets and quotes match and whose branches are visible, with each `&`
outside of quotes and no backslash that takes one, or a blank character, or the end out of play. -/
structure Readable (t : Text) : Prop where
  balanced : Text.balanced t = true
  unquoted : ∀ cut ∈ splits '&' t, (Scan.after .plain cut.1).outside = true
  unescaped : ∀ cut ∈ splits '\\' t, cut.2.head?.any (fun c => !isBlank c && c != '&') = true
  visible : ∀ branch ∈ branches t, branch ≠ []

namespace Readable

instance (t : Text) : Decidable (Readable t) :=
  decidable_of_iff (Text.balanced t = true ∧
      (∀ cut ∈ splits '&' t, (Scan.after .plain cut.1).outside = true) ∧
      (∀ cut ∈ splits '\\' t, cut.2.head?.any (fun c => !isBlank c && c != '&') = true) ∧
      ∀ branch ∈ branches t, branch ≠ [])
    ⟨fun ⟨balanced, unquoted, unescaped, visible⟩ => ⟨balanced, unquoted, unescaped, visible⟩,
      fun ⟨balanced, unquoted, unescaped, visible⟩ => ⟨balanced, unquoted, unescaped, visible⟩⟩

variable {t : Text}

/-- What stands behind a backslash. -/
theorem behind_backslash (readable : Readable t) {a b : Text} (whole : t = a ++ '\\' :: b) :
    ∃ c rest, b = c :: rest ∧ isBlank c = false ∧ c ≠ '&' := by
  have kept := readable.unescaped (a, b) (mem_splits.mpr whole)
  cases b with
  | nil => cases kept
  | cons c rest => exact ⟨c, rest, rfl, by simpa using kept⟩

theorem closed (readable : Readable t) : Closed t := by
  refine (closed_iff_not_dangling readable.balanced).mpr fun dangling => ?_
  obtain ⟨front, whole⟩ := Dangling.backslash dangling
  obtain ⟨c, rest, more, -⟩ := readable.behind_backslash whole
  cases more

theorem exposed (readable : Readable t) : Exposed '&' .plain t := by
  rintro ⟨a, b⟩ member
  have outside := readable.unquoted (a, b) member
  cases after : Scan.after .plain a with
  | plain => rfl
  | escaped =>
    obtain ⟨front, rfl⟩ := Dangling.backslash after
    have whole : t = front ++ '\\' :: ('&' :: b) := by simpa using mem_splits.mp member
    obtain ⟨c, rest, same, -, other⟩ := readable.behind_backslash whole
    cases same
    exact absurd rfl other
  | quoted q => simp [after, Scan.outside] at outside
  | quotedEscaped q => simp [after, Scan.outside] at outside

theorem pattern (readable : Readable t) {b : Text} (member : b ∈ branches t) : Pattern b := by
  obtain ⟨piece, inside, rfl⟩ := List.mem_map.mp member
  have solid := solid_of_closed (by decide) readable.closed inside
  obtain ⟨front, rest, whole, shut⟩ := front_of_piece (by decide) readable.closed inside
  have shown (inner : Text) (c : Char) (more : Text) (same : piece = inner ++ '\\' :: c :: more) :
      isBlank c = false := by
    have place : t = front ++ inner ++ '\\' :: (c :: more ++ rest) := by rw [whole, same]; simp
    obtain ⟨d, _, behind, visible, -⟩ := readable.behind_backslash place
    cases behind
    exact visible
  have closed : Closed (trim piece) :=
    (closed_iff_not_dangling (balanced_trim solid.closed.balanced)).mpr
      (not_dangling_trim solid.closed shown)
  obtain ⟨before, behind, cut, blank, -⟩ := trim_parts piece
  have start : Closed before := track_blank blank []
  have parts : t = front ++ before ++ (trim piece ++ (behind ++ rest)) := by
    conv => lhs; rw [whole, cut]
    simp
  have exposed := readable.exposed
  rw [parts, exposed_append, track_scan (shut.append start)] at exposed
  rw [cut] at solid
  exact ⟨⟨solid.part start closed, trim_trim piece, readable.visible _ member⟩,
    (exposed_append.mp exposed.2).1⟩

end Readable

/-- The branches after all steps. -/
def compose : List Step → List Text → List Text
  | [], outers => outers
  | .selector template :: steps, outers => compose steps (fill (branches template) outers)
  | .atRule _ :: steps, outers => compose steps outers

theorem compose_append (xs ys : List Step) (outers : List Text) :
    compose (xs ++ ys) outers = compose ys (compose xs outers) := by
  induction xs generalizing outers with
  | nil => rfl
  | cons step xs ih =>
    cases step with
    | selector template => exact ih (fill (branches template) outers)
    | atRule header => exact ih outers

theorem compose_fill (steps : List Step) (templates outers : List Text) :
    compose steps (fill templates outers) = fill (compose steps templates) outers := by
  induction steps generalizing templates with
  | nil => rfl
  | cons step steps ih =>
    cases step with
    | selector template => rw [compose, compose, fill_fill, ih]
    | atRule header => exact ih templates

/-- The branches that steps make of the element itself stand for the steps. -/
theorem compose_eq_fill (steps : List Step) (outers : List Text) :
    compose steps outers = fill (compose steps [['&']]) outers := by
  rw [← compose_fill, self_fill]

/-- The template of every selector step is readable. -/
def Legible (steps : List Step) : Prop := ∀ template, .selector template ∈ steps → Readable template

theorem legible_cons {step : Step} {steps : List Step} :
    Legible (step :: steps) ↔ Legible [step] ∧ Legible steps := by
  simp [Legible, or_imp, forall_and]

theorem legible_append {xs ys : List Step} : Legible (xs ++ ys) ↔ Legible xs ∧ Legible ys := by
  simp [Legible, or_imp, forall_and]

theorem fill_ne_nil {outers : List Text} (template : Text) (some_outer : outers ≠ []) :
    fill (branches template) outers ≠ [] := by
  obtain ⟨outer, outers, rfl⟩ := List.exists_cons_of_ne_nil some_outer
  simp [fill, branches, segment_ne_nil]

theorem compose_ne_nil (steps : List Step) {outers : List Text} (some_outer : outers ≠ []) :
    compose steps outers ≠ [] := by
  induction steps generalizing outers with
  | nil => exact some_outer
  | cons step steps ih =>
    cases step with
    | selector template => exact ih (fill_ne_nil template some_outer)
    | atRule header => exact ih some_outer

/-- Readable templates give patterns again. -/
theorem compose_patterns {steps : List Step} (legible : Legible steps) {outers : List Text}
    (each : ∀ o ∈ outers, Pattern o) : ∀ b ∈ compose steps outers, Pattern b := by
  induction steps generalizing outers with
  | nil => exact each
  | cons step steps ih =>
    obtain ⟨first, others⟩ := legible_cons.mp legible
    cases step with
    | selector template =>
      refine ih others fun b member => ?_
      obtain ⟨outer, inside, made⟩ := List.mem_flatMap.mp member
      obtain ⟨branch, chosen, rfl⟩ := List.mem_map.mp made
      exact ((first template (by simp)).pattern chosen).replace (each outer inside)
    | atRule header => exact ih others each

/-- The branches that readable steps make of the element itself. -/
theorem pattern_of_mem_compose {steps : List Step} (legible : Legible steps) {b : Text}
    (member : b ∈ compose steps [['&']]) : Pattern b :=
  compose_patterns legible (by simpa using pattern_self) b member

end AtomicCss.Step

namespace AtomicCss.Composition
open Text Step

/-- The selector is the list of the branches after all steps. -/
theorem foldl_selector {steps : List Step} (legible : Legible steps) {c : Composition}
    {outers : List Text} (some_outer : outers ≠ []) (each : ∀ o ∈ outers, Pattern o)
    (listed : c.selector = joinWith ", " outers) :
    (steps.foldl add c).selector = joinWith ", " (compose steps outers) := by
  induction steps generalizing c outers with
  | nil => exact listed
  | cons step steps ih =>
    obtain ⟨first, others⟩ := legible_cons.mp legible
    rw [List.foldl_cons]
    cases step with
    | selector template =>
      have patterns : ∀ b ∈ fill (branches template) outers, Pattern b :=
        compose_patterns first each
      refine ih others (fill_ne_nil template some_outer) patterns ?_
      rw [add, substitute_eq, listed, branches_joinWith some_outer fun o member => (each o member).toBranch]
    | atRule header => exact ih others some_outer each listed

theorem ofSteps_selector {steps : List Step} (legible : Legible steps) :
    (ofSteps steps).selector = joinWith ", " (compose steps [['&']]) :=
  foldl_selector legible (by simp) (by simpa using pattern_self) rfl

theorem branches_ofSteps {steps : List Step} (legible : Legible steps) :
    branches (ofSteps steps).selector = compose steps [['&']] := by
  rw [ofSteps_selector legible]
  exact branches_joinWith (compose_ne_nil steps (by simp)) fun o member =>
    (pattern_of_mem_compose legible member).toBranch

/-- The steps that a composition stands for. -/
def group (c : Composition) : List Step := c.atRules.map .atRule ++ [.selector c.selector]

theorem foldl_headers (headers : List AtRule) (c : Composition) :
    (headers.map Step.atRule).foldl add c = { c with atRules := c.atRules ++ headers } := by
  induction headers generalizing c with
  | nil => simp
  | cons header headers ih => rw [List.map_cons, List.foldl_cons, ih]; simp [add]

theorem foldl_group (c d : Composition) :
    (group d).foldl add c =
      { selector := substitute d.selector c.selector, atRules := c.atRules ++ d.atRules } := by
  rw [group, List.foldl_append, foldl_headers]
  rfl

/-- A composition of readable steps that is used as one step. -/
theorem substitute_ofSteps_self {steps : List Step} (legible : Legible steps) :
    substitute (ofSteps steps).selector ['&'] = (ofSteps steps).selector := by
  have alone : branches ['&'] = [['&']] := by decide
  rw [substitute_eq, branches_ofSteps legible, alone, fill_self, ofSteps_selector legible]

/-- Steps may be composed in groups. The selector of a group is one selector step, and with its at-rules
in front the group may stand in the place of its steps. -/
theorem ofSteps_grouped (xs ys : List Step)
    (readable : ∀ template, .selector template ∈ xs ++ ys → Readable template) :
    (ofSteps (xs ++ ys)).selector =
        (ofSteps [.selector (ofSteps xs).selector, .selector (ofSteps ys).selector]).selector ∧
      (ofSteps (xs ++ ys)).atRules = (ofSteps xs).atRules ++ (ofSteps ys).atRules ∧
      ofSteps (xs ++ ys) = ofSteps (group (ofSteps xs) ++ group (ofSteps ys)) := by
  obtain ⟨first, second⟩ := legible_append.mp readable
  have joined : (ofSteps (xs ++ ys)).selector =
      substitute (ofSteps ys).selector (ofSteps xs).selector := by
    rw [ofSteps_selector readable, compose_append, compose_eq_fill ys, substitute_eq,
      branches_ofSteps first, branches_ofSteps second]
  have headers : (ofSteps (xs ++ ys)).atRules = (ofSteps xs).atRules ++ (ofSteps ys).atRules := by
    simp only [ofSteps_atRules, List.filterMap_append]
  have alone := substitute_ofSteps_self first
  refine ⟨?_, headers, ?_⟩
  · calc (ofSteps (xs ++ ys)).selector
        = substitute (ofSteps ys).selector (ofSteps xs).selector := joined
      _ = substitute (ofSteps ys).selector (substitute (ofSteps xs).selector ['&']) := by rw [alone]
  · have grouped : ofSteps (group (ofSteps xs) ++ group (ofSteps ys)) =
        { selector := substitute (ofSteps ys).selector (substitute (ofSteps xs).selector ['&'])
          atRules := (ofSteps xs).atRules ++ (ofSteps ys).atRules } := by
      rw [ofSteps, List.foldl_append, foldl_group, foldl_group]
      rfl
    rw [grouped, alone, ← joined, ← headers]

theorem markers_grouped :
    let xs : List Step := [.selector "& *::marker, &::marker", .atRule ⟨"media", "print"⟩]
    let ys : List Step := [.atRule ⟨"supports", "(gap: 0)"⟩, .selector "&:is(.a, [b=','])", .selector "&:hover, p &"]
    (∀ template, .selector template ∈ xs ++ ys → Readable template) ∧
      (ofSteps (xs ++ ys)).selector =
          (ofSteps [.selector (ofSteps xs).selector, .selector (ofSteps ys).selector]).selector ∧
        (ofSteps (xs ++ ys)).atRules = (ofSteps xs).atRules ++ (ofSteps ys).atRules ∧
        ofSteps (xs ++ ys) = ofSteps (group (ofSteps xs) ++ group (ofSteps ys)) := by
  intro xs ys
  have readable : ∀ template, .selector template ∈ xs ++ ys → Readable template := by
    intro template member
    simp only [xs, ys, List.cons_append, List.nil_append, List.mem_cons, List.not_mem_nil, or_false,
      Step.selector.injEq, reduceCtorEq, false_or] at member
    rcases member with rfl | rfl | rfl <;> decide
  exact ⟨readable, ofSteps_grouped xs ys readable⟩

end AtomicCss.Composition
