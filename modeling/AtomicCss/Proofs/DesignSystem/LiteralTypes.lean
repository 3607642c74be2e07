import AtomicCss.Proofs.DataType.Units
import AtomicCss.Proofs.DesignSystem.Rejection
import Mathlib.Data.List.Pairwise

/-! Utilities under one root that are told apart by the types of literals. A value between brackets
that is no call and has no hint is for one of them at most, in whatever order they were registered,
unless it is a zero without a unit, which may be meant for a length or for a number. -/
namespace AtomicCss
open Text DataType

namespace Outcome

variable {α : Type} {offer : α → Outcome} {xs : List α}

theorem firstOf_retry (passed : ∀ x ∈ xs, offer x = .retry) : firstOf offer xs = .retry := by
  induction xs with
  | nil => rfl
  | cons x xs ih =>
    obtain ⟨first, later⟩ := List.forall_mem_cons.mp passed
    rw [firstOf_passed first, ih later]

/-- Where all others pass it on, what is offered is answered by one alone. -/
theorem firstOf_sole {x : α} (member : x ∈ xs) (others : ∀ y ∈ xs, y ≠ x → offer y = .retry) :
    firstOf offer xs = offer x := by
  by_cases passed : offer x = .retry
  · rw [passed]
    refine firstOf_retry fun y inside => ?_
    by_cases same : y = x
    · rw [same, passed]
    · exact others y inside same
  · obtain ⟨before, after, rfl, fresh⟩ := List.eq_append_cons_of_mem member
    refine (firstOf_eq_iff passed).mpr ⟨before, x, after, rfl, rfl, fun y inside => ?_⟩
    exact others y (by simp [inside]) (ne_of_mem_of_not_mem inside fresh)

end Outcome

namespace FunctionalUtility

/-- Between brackets and without a hint, the utility takes the text for a value of a type of literals. -/
def TakesLiteral (t : Text) (u : FunctionalUtility) : Prop :=
  ∃ type ∈ literalTypes, u.arbitraryType t none = some type

/-- The two utilities have no type of literals in common. -/
def Unshared (u v : FunctionalUtility) : Prop := ∀ type ∈ literalTypes, type ∈ u.types → type ∉ v.types

instance : Std.Symm Unshared := ⟨fun _ _ unshared type known inside inside' => unshared type known inside' inside⟩

instance (u v : FunctionalUtility) : Decidable (Unshared u v) :=
  inferInstanceAs (Decidable (∀ type ∈ literalTypes, _))

/-- No two of the utilities have one. -/
def Apart (us : List FunctionalUtility) : Prop := us.Pairwise Unshared

instance (us : List FunctionalUtility) : Decidable (Apart us) := inferInstanceAs (Decidable (us.Pairwise Unshared))

variable {us : List FunctionalUtility} {u v : FunctionalUtility} {t : Text}

theorem listed_of_arbitraryType {type : DataType} (taken : u.arbitraryType t none = some type) :
    type ∈ u.types ∧ type.accepts t = true := by
  have found : u.types.find? (fun type => type.accepts t) = some type := taken
  have accepted := List.find?_some found
  exact ⟨List.mem_of_find?_eq_some found, accepted⟩

/-- A utility with types of literals only that does not take the text passes it on. -/
theorem answer_eq_retry_of_types (types : ∀ type ∈ u.types, type ∈ literalTypes) (untaken : ¬ u.TakesLiteral t)
    (theme : Theme) (m : Option Argument) (negative : Bool) :
    u.answer theme (some (.arbitrary t none)) m negative = .retry := by
  by_contra decided
  obtain ⟨-, _, _, _, takes⟩ := takes_of_answer decided
  cases takes with
  | inferred inferred => exact untaken ⟨_, types _ (listed_of_arbitraryType inferred).1, inferred⟩

/-- Of utilities without a common type only one takes the text. -/
theorem Apart.sole (apart : Apart us) (alone : callName? (trim t) = none) (member : u ∈ us) (member' : v ∈ us)
    (takes : u.TakesLiteral t) (takes' : v.TakesLiteral t) : v = u ∨ UnitlessZero t := by
  obtain ⟨type, known, taken⟩ := takes
  obtain ⟨other, known', taken'⟩ := takes'
  obtain ⟨listed, accepted⟩ := listed_of_arbitraryType taken
  obtain ⟨listed', accepted'⟩ := listed_of_arbitraryType taken'
  rcases same_type_or_zero alone known known' accepted accepted' with rfl | zero
  · refine .inl (by_contra fun differ => ?_)
    exact apart.forall member member' (Ne.symm differ) type known listed listed'
  · exact .inr zero

end FunctionalUtility

namespace DesignSystem
open FunctionalUtility

theorem offer_sole {system : DesignSystem} {root t : Text} {u : FunctionalUtility}
    (member : u ∈ system.utilities.functionals root) (apart : Apart (system.utilities.functionals root))
    (alone : callName? (trim t) = none) (takes : u.TakesLiteral t) (nonzero : ¬ UnitlessZero t)
    (typed : ∀ v ∈ system.utilities.functionals root, v ≠ u → ∀ type ∈ v.types, type ∈ literalTypes)
    (m : Option Argument) (negative : Bool) :
    system.offer root (some (.arbitrary t none)) m negative =
      u.answer system.theme (some (.arbitrary t none)) m negative := by
  have order := offerOrder_perm (some (.arbitrary t none)) (system.utilities.functionals root)
  refine Outcome.firstOf_sole (order.mem_iff.mpr member) fun v inside differ => ?_
  have member' := order.mem_iff.mp inside
  refine answer_eq_retry_of_types (typed v member' differ) (fun takes' => ?_) system.theme m negative
  exact (apart.sole alone member member' takes takes').elim differ nonzero

/-- A value that is no call is a literal of one type at most, except for a zero without a unit: a
number without a unit is a number, and besides a length exactly if it is zero. So utilities without
a common type do not compete for the value, but for a zero. -/
theorem literal_types_disjoint (system : DesignSystem) (root : Text) {t : Text}
    (alone : callName? (trim t) = none) :
    (∀ type ∈ literalTypes, ∀ other ∈ literalTypes, type.accepts t = true → other.accepts t = true →
      type = other ∨ UnitlessZero t) ∧
    (number.accepts t = true ↔ ∃ l, Unitless l t) ∧
    (∀ l, Unitless l t → ∀ type ∈ literalTypes,
      (type.accepts t = true ↔ type = number ∨ type = length ∧ l.value = 0)) ∧
    (integer.accepts t = true → number.accepts t = true) ∧
    ∀ u ∈ system.utilities.functionals root, u.TakesLiteral t → Apart (system.utilities.functionals root) →
      (∀ v ∈ system.utilities.functionals root, v.TakesLiteral t → v = u ∨ UnitlessZero t) ∧
      (¬ UnitlessZero t →
        (∀ v ∈ system.utilities.functionals root, v ≠ u → ∀ type ∈ v.types, type ∈ literalTypes) →
        ∀ m negative, system.offer root (some (.arbitrary t none)) m negative =
          u.answer system.theme (some (.arbitrary t none)) m negative) := by
  refine ⟨fun type known other known' => same_type_or_zero alone known known',
    number_iff_unitless alone, fun l unitless type known => accepts_unitless unitless known, number_of_integer, ?_⟩
  intro u member takes apart
  exact ⟨fun v member' => apart.sole alone member member' takes,
    fun nonzero typed => offer_sole member apart alone takes nonzero typed⟩

/-- Half a turn back is for the utility of angles, although others were registered before it, and
a negative zero with places is for those of lengths and numbers. -/
theorem half_turn_only_angle :
    let size : FunctionalUtility := { emit := fun v _ => [Css.declare "width" v], types := [.color, .length] }
    let scale : FunctionalUtility := { emit := fun v _ => [Css.declare "scale" v], types := [.number, .percentage] }
    let turn : FunctionalUtility := { emit := fun v _ => [Css.declare "rotate" v], types := [.ratio, .angle] }
    let system : DesignSystem := ⟨none, .empty,
      ⟨[("x", .functional size), ("x", .functional scale), ("x", .functional turn)]⟩, .empty⟩
    let zero : Literal := ⟨.minus, "0", some "00", none, forall_of_all rfl, nofun⟩
    callName? (trim " -.5tUrn ") = none ∧ turn.TakesLiteral " -.5tUrn " ∧
      Apart (system.utilities.functionals "x") ∧ ¬ UnitlessZero " -.5tUrn " ∧
      system.offer "x" (some (.arbitrary " -.5tUrn " none)) none false = .matched [Css.declare "rotate" " -.5tUrn "] ∧
      callName? (trim "-0.00") = none ∧ Unitless zero "-0.00" ∧
      literalTypes.filter (fun type => type.accepts "-0.00") = [.length, .number] := by
  intro size scale turn system zero
  have alone : callName? (trim " -.5tUrn ") = none := by decide +kernel
  have takes : turn.TakesLiteral " -.5tUrn " := ⟨.angle, by decide, by decide +kernel⟩
  have apart : Apart (system.utilities.functionals "x") := by decide +kernel
  have nonzero : ¬ UnitlessZero " -.5tUrn " := by decide +kernel
  have member : turn ∈ system.utilities.functionals "x" := mem_functionals.mpr (by simp [system])
  have typed : ∀ v ∈ system.utilities.functionals "x", v ≠ turn → ∀ type ∈ v.types, type ∈ literalTypes := by
    have each : ∀ v ∈ system.utilities.functionals "x", ∀ type ∈ v.types, type ∈ literalTypes := by decide +kernel
    exact fun v inside _ => each v inside
  obtain ⟨-, -, -, -, selected⟩ := literal_types_disjoint system "x" alone
  have offered := (selected turn member takes apart).2 nonzero typed none false
  have answer : turn.answer system.theme (some (.arbitrary " -.5tUrn " none)) none false =
      .matched [Css.declare "rotate" " -.5tUrn "] := by decide +kernel
  have alone' : callName? (trim "-0.00") = none := by decide +kernel
  have unitless : Unitless zero "-0.00" := ⟨rfl, by decide +kernel⟩
  obtain ⟨-, -, numbers, -, -⟩ := literal_types_disjoint system "x" alone'
  have types : literalTypes.filter (fun type => type.accepts "-0.00") =
      literalTypes.filter fun type => type = number ∨ type = length := by
    refine List.filter_congr fun type known => ?_
    have denotes : zero.value = 0 := Literal.value_eq_zero_iff.mpr (forall_of_all rfl)
    rw [Bool.eq_iff_iff, numbers zero unitless type known]
    simp [denotes]
  exact ⟨alone, takes, apart, nonzero, offered.trans answer, alone', unitless, types.trans (by decide)⟩

end DesignSystem
end AtomicCss
