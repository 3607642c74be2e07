import AtomicCss.Proofs.DesignSystem.Soundness

/-! How a search among utilities fails. A value between brackets belongs to the first
utility that knows it: where its modifier does not fit there, no later utility is
asked. A named value fails only if every utility declines it on its own, under
each root that the text can be cut into. -/
namespace AtomicCss
open Text

namespace Outcome

variable {α : Type} {offer : α → Outcome}

/-- An element that stops the search stops it for all behind it, unless one in front has matched. -/
theorem firstOf_stopped {before after : List α} {x : α} (stopped : offer x = .stop)
    (unmatched : ∀ y ∈ before, ∀ nodes, offer y ≠ .matched nodes) :
    firstOf offer (before ++ x :: after) = .stop := by
  induction before with
  | nil =>
    rw [List.nil_append, firstOf_decided (by simp [stopped]), stopped]
  | cons y before ih =>
    obtain ⟨first, others⟩ := List.forall_mem_cons.mp unmatched
    rw [List.cons_append]
    cases answer : offer y with
    | matched nodes => exact absurd answer (first nodes)
    | retry => rw [firstOf_passed answer, ih others]
    | stop => rw [firstOf_decided (by simp [answer]), answer]

theorem firstOf_ne_stop {xs : List α} (unstopped : ∀ x ∈ xs, offer x ≠ .stop) :
    firstOf offer xs ≠ .stop := by
  intro stopped
  obtain ⟨before, x, after, rfl, answer, -⟩ := (firstOf_eq_iff (by simp)).mp stopped
  exact unstopped x (by simp) answer

/-- Where nothing stops the search, it finds the first match. -/
theorem nodes_firstOf {xs : List α} (unstopped : ∀ x ∈ xs, offer x ≠ .stop) :
    (firstOf offer xs).nodes? = xs.findSome? fun x => (offer x).nodes? := by
  induction xs with
  | nil => rfl
  | cons x xs ih =>
    obtain ⟨first, others⟩ := List.forall_mem_cons.mp unstopped
    rw [List.findSome?_cons]
    cases answer : offer x with
    | matched nodes =>
      rw [firstOf_decided (by simp [answer]), answer]
      rfl
    | retry =>
      rw [firstOf_passed answer, ih others]
      rfl
    | stop => contradiction

end Outcome

namespace FunctionalUtility

/-- The utility knows the value and allows the sign, but the modifier stands for nothing. -/
inductive Refuses (u : FunctionalUtility) (theme : Theme) (value : Option UtilityValue)
    (modifier : Option Argument) (negative : Bool) : Prop
  | intro {t : Text} {type : Option DataType} {left : Option Argument}
    (sign : negative = true → u.supportsNegative = true)
    (takes : u.Takes theme value modifier t type left)
    (unmodified : ∀ resolved, ¬ u.Modified theme (u.colors type) left resolved)

theorem produce_ne_stop (u : FunctionalUtility) (isColor negative : Bool) (t : Text)
    (resolved : Option Text) : u.produce isColor negative t resolved ≠ .stop := by
  unfold produce
  dsimp only
  split <;> simp

/-- Only a value between brackets has a type of its own. -/
theorem type_of_takes {u : FunctionalUtility} {theme : Theme} {value : Option UtilityValue}
    {m left : Option Argument} {t : Text} {type : Option DataType}
    (takes : u.Takes theme value m t type left) :
    type.isSome = true ↔ ∃ text hint, value = some (.arbitrary text hint) := by
  cases takes <;> simp

/-- The modifier that is left stands for something exactly if there is none or it has a text. -/
theorem modified_some_iff {u : FunctionalUtility} {theme : Theme} {isColor : Bool} {m : Argument} :
    (∃ resolved, u.Modified theme isColor (some m) resolved) ↔
      (u.modifierText theme isColor m).isSome = true := by
  rw [Option.isSome_iff_exists]
  constructor
  · rintro ⟨_, modified⟩
    cases modified with
    | resolved policy gives => exact ⟨_, gives_iff.mpr ⟨_, policy, gives⟩⟩
  · rintro ⟨t, given⟩
    obtain ⟨p, policy, gives⟩ := gives_iff.mp given
    exact ⟨some t, .resolved policy gives⟩

/-- A utility stops the search exactly when it refuses a value between brackets. -/
theorem answer_eq_stop {u : FunctionalUtility} {theme : Theme} {value : Option UtilityValue}
    {modifier : Option Argument} {negative : Bool} :
    u.answer theme value modifier negative = .stop ↔
      u.Refuses theme value modifier negative ∧ ∃ t hint, value = some (.arbitrary t hint) := by
  constructor
  · intro stopped
    obtain ⟨sign, t, type, left, takes⟩ := takes_of_answer (by rw [stopped]; simp)
    rw [answer_of_takes sign takes] at stopped
    cases left with
    | none =>
      rw [reply] at stopped
      exact absurd stopped (produce_ne_stop u _ _ _ _)
    | some m =>
      cases given : u.modifierText theme (u.colors type) m with
      | some text =>
        rw [reply, given] at stopped
        exact absurd stopped (produce_ne_stop u _ _ _ _)
      | none =>
        rw [reply, given] at stopped
        dsimp only at stopped
        split at stopped
        · rename_i typed
          refine ⟨.intro sign takes fun resolved modified => ?_, (type_of_takes takes).mp typed⟩
          have some_text := modified_some_iff.mp ⟨resolved, modified⟩
          rw [given] at some_text
          cases some_text
        · cases stopped
  · rintro ⟨⟨sign, takes, unmodified⟩, bracketed⟩
    rename_i t type left
    rw [answer_of_takes sign takes]
    cases left with
    | none => exact absurd .none (unmodified none)
    | some m =>
      have meaningless : u.modifierText theme (u.colors type) m = none := by
        rw [← Option.not_isSome_iff_eq_none, ← modified_some_iff]
        rintro ⟨resolved, modified⟩
        exact unmodified resolved modified
      simp only [reply, meaningless, (type_of_takes takes).mpr bracketed, if_true]

/-- A named value never stops the search. -/
theorem answer_named_ne_stop (u : FunctionalUtility) (theme : Theme) (name : Text)
    (modifier : Option Argument) (negative : Bool) :
    u.answer theme (some (.named name)) modifier negative ≠ .stop := by
  intro stopped
  obtain ⟨-, t, hint, ⟨⟩⟩ := answer_eq_stop.mp stopped

/-- What is neither admitted nor refused is left to the next utility. -/
theorem answer_eq_retry {u : FunctionalUtility} {theme : Theme} {t : Text} {hint : Option Text}
    {modifier : Option Argument} {negative : Bool} :
    u.answer theme (some (.arbitrary t hint)) modifier negative = .retry ↔
      ¬ u.Refuses theme (some (.arbitrary t hint)) modifier negative ∧
        ∀ nodes, ¬ u.Admits theme (some (.arbitrary t hint)) modifier negative nodes := by
  have stop := @answer_eq_stop u theme (some (.arbitrary t hint)) modifier negative
  simp only [← answer_eq_matched]
  cases answer : u.answer theme (some (.arbitrary t hint)) modifier negative with
  | matched nodes => simp
  | retry => simp_all
  | stop => simp_all

end FunctionalUtility

/-- Every utility under the root is tried, in one order or the other. -/
theorem offerOrder_perm (value : Option UtilityValue) (us : List FunctionalUtility) :
    (offerOrder value us).Perm us := by
  unfold offerOrder
  split
  · exact List.filter_append_perm _ us
  · exact .refl us

namespace DesignSystem

/-- A value between brackets has the nodes of the first utility that admits it, provided that
no utility before that one refuses it. A refusal ends the search, whatever comes behind. -/
theorem refusal_ends_search (system : DesignSystem) (root t : Text) (hint : Option Text)
    (m : Option Argument) (negative : Bool) (variants : List Variant) (important : Bool) :
    let value : Option UtilityValue := some (.arbitrary t hint)
    let order := offerOrder value (system.utilities.functionals root)
    let c : Candidate := ⟨.functional root value m negative, variants, important⟩
    order.Perm (system.utilities.functionals root) ∧
    (∀ before u after, order = before ++ u :: after → u.Refuses system.theme value m negative →
      (∀ v ∈ before, ∀ nodes, ¬ v.Admits system.theme value m negative nodes) →
        system.resolve c = none) ∧
    ∀ nodes, system.resolve c = some nodes ↔
      ∃ before u after declared, order = before ++ u :: after ∧
        u.Admits system.theme value m negative declared ∧
        (nodes = if important then Css.markImportant declared else declared) ∧
        ∀ v ∈ before, ¬ v.Refuses system.theme value m negative ∧
          ∀ nodes, ¬ v.Admits system.theme value m negative nodes := by
  intro value order c
  have resolved : system.resolve c = ((system.offer root value m negative).nodes?).map fun nodes =>
      if important then Css.markImportant nodes else nodes := rfl
  refine ⟨offerOrder_perm value _, ?_, ?_⟩
  · intro before u after whole refuses unmatched
    have stopped : system.offer root value m negative = .stop := by
      unfold offer
      change Outcome.firstOf _ order = _
      rw [whole]
      refine Outcome.firstOf_stopped (FunctionalUtility.answer_eq_stop.mpr ⟨refuses, t, hint, rfl⟩) ?_
      intro v member nodes matched
      exact unmatched v member nodes (FunctionalUtility.answer_eq_matched.mp matched)
    rw [resolved, stopped]
    rfl
  · intro nodes
    rw [resolved, Option.map_eq_some_iff]
    constructor
    · rintro ⟨declared, found, rfl⟩
      obtain ⟨before, u, after, whole, answer, passed⟩ :=
        (Outcome.firstOf_eq_iff (by simp)).mp (nodes_eq_some.mp found)
      exact ⟨before, u, after, declared, whole, FunctionalUtility.answer_eq_matched.mp answer, rfl,
        fun v member => FunctionalUtility.answer_eq_retry.mp (passed v member)⟩
    · rintro ⟨before, u, after, declared, whole, admits, rfl, passed⟩
      refine ⟨declared, nodes_eq_some.mpr ?_, rfl⟩
      exact (Outcome.firstOf_eq_iff (by simp)).mpr ⟨before, u, after, whole,
        FunctionalUtility.answer_eq_matched.mpr admits,
        fun v member => FunctionalUtility.answer_eq_retry.mpr (passed v member)⟩

/-- The first of two utilities knows the value and takes no modifier, so that the second one,
which takes any, is not asked. -/
theorem first_refusal_ends_search :
    let first : FunctionalUtility := { emit := fun v _ => [Css.declare "tab-size" v], types := [.integer] }
    let second : FunctionalUtility := { emit := fun v _ => [Css.declare "tab-size" v], modifiers := some .any }
    let system : DesignSystem :=
      ⟨none, .empty, ⟨[("tab", .functional first), ("tab", .functional second)]⟩, .empty⟩
    let value : Option UtilityValue := some (.arbitrary "4" none)
    let wide : Option Argument := some (.named "wide")
    second.Admits system.theme value wide false [Css.declare "tab-size" "4"] ∧
      first.Refuses system.theme value wide false ∧
      system.resolve ⟨.functional "tab" value wide false, [], false⟩ = none := by
  intro first second system value wide
  have refuses : first.Refuses system.theme value wide false :=
    (FunctionalUtility.answer_eq_stop.mp (by decide +kernel)).1
  have order : offerOrder value (system.utilities.functionals "tab") = [] ++ first :: [second] := rfl
  refine ⟨FunctionalUtility.answer_eq_matched.mp (by decide +kernel), refuses, ?_⟩
  exact (refusal_ends_search system "tab" "4" none wide false [] false).2.1 [] first [second] order refuses
    (by simp)

theorem offer_named (system : DesignSystem) (root name : Text) (m : Option Argument) (negative : Bool) :
    system.offer root (some (.named name)) m negative ≠ .stop ∧
      (system.offer root (some (.named name)) m negative).nodes? =
        (system.utilities.functionals root).findSome? fun u =>
          (u.answer system.theme (some (.named name)) m negative).nodes? := by
  have unstopped (u : FunctionalUtility) (_ : u ∈ system.utilities.functionals root) :=
    u.answer_named_ne_stop system.theme name m negative
  exact ⟨Outcome.firstOf_ne_stop unstopped, Outcome.nodes_firstOf unstopped⟩

/-- The search over all cuts of a text and all utilities under each root is one search. -/
theorem namedNodes_eq_findSome (system : DesignSystem) (full : Text) (m : Option Argument)
    (negative : Bool) :
    system.namedNodes full m negative = (splits '-' full).findSome? fun cut =>
      (system.utilities.functionals cut.1).findSome? fun u =>
        (u.answer system.theme (some (.named cut.2)) m negative).nodes? := by
  have offers (cut : Text × Text) := system.offer_named cut.1 cut.2 m negative
  unfold namedNodes
  rw [Outcome.nodes_firstOf fun cut _ => (offers cut).1]
  simp only [(offers _).2]

theorem namedNodes_eq_none {system : DesignSystem} {full : Text} {m : Option Argument} {negative : Bool} :
    system.namedNodes full m negative = none ↔
      ∀ r v u, full = r ++ '-' :: v → (r, .functional u) ∈ system.utilities.records →
        (u.answer system.theme (some (.named v)) m negative).nodes? = none := by
  simp only [namedNodes_eq_findSome, List.findSome?_eq_none_iff, Prod.forall, mem_splits, mem_functionals]
  constructor
  · intro each r v u cut member
    exact each r v cut u member
  · intro each r v cut u member
    exact each r v u cut member

/-- No static utility answers where none has the name. -/
theorem staticNodes_eq_none {system : DesignSystem} {root value : Text} {m : Option Argument}
    {negative : Bool} :
    system.staticNodes (root ++ '-' :: value) m negative = none ↔
      ∀ name, StaticName (.functional root (some (.named value)) m negative) name →
        system.utilities.statics name = [] := by
  simp only [← List.head?_eq_none_iff]
  constructor
  · intro absent name named
    cases named <;> exact absent
  · intro absent
    cases negative with
    | true => rfl
    | false =>
      rcases m with _ | (modifier | text)
      · exact absent _ (.valued root value)
      · exact absent _ (.modified root value modifier)
      · rfl

/-- A named value stands for nothing exactly if there is no static utility of its name and each
utility declines it on its own, for every cut of the text at a dash. Where the text was cut
before makes no difference. -/
theorem named_value_lost_iff (system : DesignSystem) (root value : Text) (m : Option Argument)
    (negative : Bool) (variants : List Variant) (important : Bool) :
    let c : Candidate := ⟨.functional root (some (.named value)) m negative, variants, important⟩
    (system.resolve c = none ↔
      (∀ name, StaticName c.base name → system.utilities.statics name = []) ∧
      ∀ r v u, root ++ '-' :: value = r ++ '-' :: v → (r, .functional u) ∈ system.utilities.records →
        (u.answer system.theme (some (.named v)) m negative).nodes? = none) ∧
    ∀ r v, root ++ '-' :: value = r ++ '-' :: v →
      system.resolve ⟨.functional r (some (.named v)) m negative, variants, important⟩ =
        system.resolve c := by
  intro c
  refine ⟨?_, fun r v same => ?_⟩
  · rw [← staticNodes_eq_none, ← namedNodes_eq_none]
    simp [resolve, resolveTerm, c]
  · simp only [resolve, resolveTerm, c, same]

end DesignSystem
end AtomicCss
