import AtomicCss.DesignSystem.Resolution
import Mathlib.Data.List.FinRange

/-! The order in which utilities under one root were registered. For a value between
brackets without a hint they are offered in two groups, those that know its type
and the others. So they may be registered in any order that keeps each of the two
groups in its own. -/
namespace AtomicCss

/-- The second list holds the elements of the first one in another order, in which two
elements come the same way round as before if both have the property or both lack it. -/
def Rearranged {α : Type} (property : α → Prop) (xs ys : List α) : Prop :=
  ∃ source : Fin ys.length ≃ Fin xs.length, (∀ i, ys.get i = xs.get (source i)) ∧
    ∀ i j, i < j → (property (ys.get i) ↔ property (ys.get j)) → source i < source j

namespace Rearranged

variable {α : Type} {property : α → Prop} {xs ys : List α}

/-- Each group is the same list as before. -/
theorem filter_eq (rearranged : Rearranged property xs ys) {test : α → Bool}
    (grouped : ∀ x y, test x = true → test y = true → (property x ↔ property y)) :
    ys.filter test = xs.filter test := by
  obtain ⟨source, same, ordered⟩ := rearranged
  have moved : ys = ((List.finRange ys.length).map source).map xs.get := by
    conv_lhs => rw [← List.map_get_finRange ys]
    rw [List.map_map]
    exact List.map_congr_left fun i _ => same i
  have perm : ((List.finRange ys.length).map source).Perm (List.finRange xs.length) := by
    refine (List.perm_ext_iff_of_nodup ?_ (List.nodup_finRange _)).mpr fun i => ?_
    · exact (List.nodup_finRange _).map source.injective
    · simpa using source.surjective i
  -- Both lists of places are sorted, and two sorted lists with the same elements are one.
  have places : ((List.finRange ys.length).map source).filter (test ∘ xs.get) =
      (List.finRange xs.length).filter (test ∘ xs.get) := by
    have sorted : (((List.finRange ys.length).map source).filter (test ∘ xs.get)).Pairwise (· < ·) := by
      rw [List.pairwise_filter, List.pairwise_map]
      refine (List.pairwise_lt_finRange _).imp fun {i j} less first second => ?_
      exact ordered i j less
        (grouped _ _ ((congrArg test (same i)).trans first) ((congrArg test (same j)).trans second))
    have sorted' : ((List.finRange xs.length).filter (test ∘ xs.get)).Pairwise (· < ·) :=
      (List.pairwise_lt_finRange _).filter _
    refine List.Perm.eq_of_pairwise ?_ sorted sorted' (perm.filter _)
    exact fun i j _ _ less more => absurd (less.trans more) (lt_irrefl i)
  calc ys.filter test
      = (((List.finRange ys.length).map source).filter (test ∘ xs.get)).map xs.get := by
        conv_lhs => rw [moved]
        rw [List.filter_map]
    _ = ((List.finRange xs.length).map xs.get).filter test := by rw [places, List.filter_map]
    _ = xs.filter test := by rw [List.map_get_finRange]

end Rearranged

namespace FunctionalUtility

/-- The utility has a type of its own, not just any, that the text is a value of. -/
def KnowsType (text : Text) (u : FunctionalUtility) : Prop :=
  ∃ type ∈ u.types, type ≠ .any ∧ type.accepts text = true

theorem acceptsConcretely_iff {text : Text} {u : FunctionalUtility} :
    u.acceptsConcretely text = true ↔ u.KnowsType text := by
  simp [acceptsConcretely, DataType.infer, KnowsType]

end FunctionalUtility

open FunctionalUtility in
theorem offerOrder_rearranged {text : Text} {us vs : List FunctionalUtility}
    (rearranged : Rearranged (KnowsType text) us vs) :
    offerOrder (some (.arbitrary text none)) vs = offerOrder (some (.arbitrary text none)) us := by
  have typed : vs.filter (·.acceptsConcretely text) = us.filter (·.acceptsConcretely text) := by
    refine rearranged.filter_eq fun u v first second => ?_
    exact iff_of_true (acceptsConcretely_iff.mp first) (acceptsConcretely_iff.mp second)
  have untyped : vs.filter (fun u => !u.acceptsConcretely text) =
      us.filter fun u => !u.acceptsConcretely text := by
    refine rearranged.filter_eq fun u v first second => ?_
    simp only [Bool.not_eq_true', ← Bool.not_eq_true, acceptsConcretely_iff] at first second
    exact iff_of_false first second
  simp only [offerOrder, typed, untyped]

namespace DesignSystem
open FunctionalUtility

/-- Where utilities that know the type of a value were registered before, between or behind
the others makes no difference for the value: neither for the nodes, nor for whether the
search ends without any because a utility refuses the modifier or because none is left. -/
theorem mixed_order_irrelevant {system other : DesignSystem} (theme : other.theme = system.theme)
    {root text : Text} (rearranged : Rearranged (KnowsType text)
      (system.utilities.functionals root) (other.utilities.functionals root))
    (m : Option Argument) (negative : Bool) (variants : List Variant) (important : Bool) :
    let value : Option UtilityValue := some (.arbitrary text none)
    let c : Candidate := ⟨.functional root value m negative, variants, important⟩
    other.offer root value m negative = system.offer root value m negative ∧
      other.resolve c = system.resolve c := by
  intro value c
  have offered : other.offer root value m negative = system.offer root value m negative := by
    unfold offer
    rw [theme, offerOrder_rearranged rearranged]
  refine ⟨offered, ?_⟩
  change ((other.offer root value m negative).nodes?).map _ =
    ((system.offer root value m negative).nodes?).map _
  rw [offered]

/-- Whichever of the two was registered first, the one that knows integers is asked first, and
emits its nodes. -/
theorem integer_before_any :
    let typed : FunctionalUtility := { emit := fun v _ => [Css.declare "tab-size" v], types := [.integer] }
    let untyped : FunctionalUtility := { emit := fun v _ => [Css.declare "tab" v] }
    let system : DesignSystem :=
      ⟨none, .empty, ⟨[("tab", .functional untyped), ("tab", .functional typed)]⟩, .empty⟩
    let other : DesignSystem :=
      ⟨none, .empty, ⟨[("tab", .functional typed), ("tab", .functional untyped)]⟩, .empty⟩
    let c : Candidate := ⟨.functional "tab" (some (.arbitrary "4" none)) none false, [], false⟩
    Rearranged (KnowsType "4") (system.utilities.functionals "tab") (other.utilities.functionals "tab") ∧
      other.resolve c = system.resolve c ∧ system.resolve c = some [Css.declare "tab-size" "4"] := by
  intro typed untyped system other c
  have knows : typed.KnowsType "4" := acceptsConcretely_iff.mp (by decide +kernel)
  have unknowing : ¬ untyped.KnowsType "4" := fun known => by
    have accepted := acceptsConcretely_iff.mpr known
    revert accepted
    decide +kernel
  have rearranged : Rearranged (KnowsType "4") [untyped, typed] [typed, untyped] := by
    refine ⟨Equiv.swap (0 : Fin 2) 1, fun i => ?_, fun i j less same => ?_⟩
    · match i with
      | 0 => rfl
      | 1 => rfl
    · match i, j with
      | 0, 1 => exact absurd (same.mp knows) unknowing
      | 0, 0 => exact absurd less (by decide)
      | 1, 0 => exact absurd less (by decide)
      | 1, 1 => exact absurd less (by decide)
  refine ⟨rearranged, ?_, by decide +kernel⟩
  exact (@mixed_order_irrelevant system other rfl "tab" "4" rearranged none false [] false).2

end DesignSystem
end AtomicCss
