import AtomicCss.Proofs.Candidate.Printing

/-! The square brackets of a class. Reading a class and writing it again may
change its spaces, its escapes and the place of its marks, but it never adds
or loses a bracket. -/
namespace AtomicCss
open Text

/-- The number of opening square brackets. -/
abbrev brackets (t : Text) : Nat := t.count '['

@[simp] theorem brackets_append (a b : Text) : brackets (a ++ b) = brackets a + brackets b :=
  List.count_append

namespace ModifierSpelt

theorem brackets_eq {t : Text} {m : Option Argument} (spelt : ModifierSpelt t m) :
    brackets (Argument.printModifier m) = brackets t := by
  cases spelt with
  | none => rfl
  | named => rfl
  | arbitrary closed read =>
    simp [Argument.printModifier, brackets, Arbitrary.count_print,
      Arbitrary.count_decodeTrimmed read]

end ModifierSpelt

namespace Variant

theorem brackets_unwrapIs (t : Text) : brackets (Value.unwrapIs t) = brackets t := by
  unfold Value.unwrapIs
  split
  · rename_i amp colon name args tree
    split
    · rename_i known
      obtain ⟨rfl, rfl, rfl⟩ := known
      conv => rhs; rw [← Value.render_parse t, tree]
      simp [brackets]
    · rfl
  · rfl

theorem brackets_shortSelector (t : Text) : brackets (shortSelector t) = brackets t := by
  unfold shortSelector
  dsimp only
  split
  · exact brackets_unwrapIs t
  · rfl

theorem brackets_anchorSelector (t : Text) : brackets (anchorSelector t) = brackets t := by
  unfold anchorSelector
  split
  · rfl
  · split <;> simp [brackets]

theorem MainSpelt.brackets_eq {t : Text} {m : Option Argument} {v : Variant}
    (spelt : MainSpelt t m v) :
    brackets v.print = brackets t + brackets (Argument.printModifier m) := by
  induction spelt with
  | static => simp [print, Argument.printModifier, brackets]
  | bare => simp [print]
  | named => simp [print, Nat.add_assoc]
  | arbitrary m shape simple closed read =>
    simp [print, brackets, Arbitrary.count_print, Arbitrary.count_decodeTrimmed read]
    omega
  | compound m known inner ih =>
    have nothing : brackets (Argument.printModifier none) = 0 := rfl
    rw [nothing] at ih
    simp only [print, brackets, List.count_append, List.count_cons] at ih ⊢
    omega

theorem Spelt.brackets_eq {t : Text} {v : Variant} (spelt : Spelt t v) :
    brackets v.print = brackets t := by
  cases spelt with
  | main main modifier => rw [main.brackets_eq, modifier.brackets_eq, brackets_append]
  | @selector inner w closed read =>
    have inside := brackets_shortSelector (anchorSelector w)
    rw [brackets_anchorSelector] at inside
    simp only [brackets] at inside
    simp [print, brackets, Arbitrary.count_print, inside, Arbitrary.count_decodeTrimmed read]

end Variant

namespace UtilityTerm

theorem brackets_hint {hint : Text} (shape : ∀ c ∈ hint, c.isLower = true ∨ c = '-') :
    brackets hint = 0 := by
  refine List.count_eq_zero.mpr fun member => ?_
  exact absurd (shape _ member) (by decide)

theorem brackets_printValue {inner : Text} {v : UtilityValue}
    (read : arbitraryValue? inner = some v) : brackets (printValue (some v)) = brackets inner + 1 := by
  obtain ⟨w, hint, rest, decoded, split, -, rfl⟩ := arbitraryValue_eq_some read
  have same := Arbitrary.count_decodeTrimmed decoded
  cases hint with
  | none =>
    obtain rfl := Arbitrary.splitHint_none split
    simp [printValue, ValueReading.written, brackets, Arbitrary.count_printUnhinted, count_trim, same]
  | some hint =>
    obtain ⟨rfl, c, behind, -, -, shape⟩ := Arbitrary.splitHint_some.mp split
    have nothing := brackets_hint shape
    simp [nothing] at same
    simp only [brackets] at nothing
    simp [printValue, ValueReading.written, brackets, Arbitrary.count_print, count_trim, nothing, same]

theorem Spelt.brackets_eq {t : Text} {u : UtilityTerm} (spelt : Spelt t u) :
    brackets u.print = brackets t := by
  cases spelt with
  | @main negative t rest m _ main modifier =>
    have sign : brackets (if negative then ['-'] else []) = 0 := by cases negative <;> rfl
    have behind := modifier.brackets_eq
    cases main with
    | static => cases modifier; cases negative <;> simp [print, UtilityTerm.negative, brackets]
    | bare => simp [print_functional, printValue, behind]
    | named => simp [print_functional, printValue, behind]
    | arbitrary m shape closed read =>
      have inside := brackets_printValue read
      rw [print_functional]
      simp only [brackets, List.count_append, List.count_cons] at inside behind ⊢
      simp
      omega
  | property shape closed read modifier =>
    have behind := modifier.brackets_eq
    simp only [brackets] at behind
    simp [print, UtilityTerm.negative, brackets, Arbitrary.count_print, behind,
      Arbitrary.count_decodeTrimmed read]

end UtilityTerm

namespace Candidate

theorem brackets_joinWith (ts : List Text) :
    brackets (joinWith [':'] ts) = brackets ts.flatten := by
  induction ts with
  | nil => rfl
  | cons a ts ih =>
    cases ts with
    | nil => simp [joinWith, List.intercalate]
    | cons b ts =>
      rw [joinWith_cons_cons, List.flatten_cons, brackets_append, brackets_append, brackets_append, ih]
      simp [brackets]

/-- The brackets of a class are those of its parts. -/
theorem brackets_eq (lead : Option Text) (c : Candidate) : brackets (c.print lead) =
    brackets (leadTexts lead).flatten + brackets (c.variants.map Variant.print).flatten +
      brackets c.base.print := by
  have nothing : brackets c.mark = 0 := by
    unfold mark
    split <;> rfl
  rw [print_eq, brackets_joinWith]
  rw [List.flatten_append, List.flatten_append, List.flatten_singleton, brackets_append,
    brackets_append, brackets_append, nothing]
  rfl

theorem brackets_variants {texts : List Text} {variants : List Variant}
    (each : List.Forall₂ Variant.Spelt texts variants) :
    brackets (variants.map Variant.print).flatten = brackets texts.flatten := by
  induction each with
  | nil => rfl
  | cons head _ ih =>
    rw [List.map_cons, List.flatten_cons, List.flatten_cons, brackets_append, brackets_append, ih,
      head.brackets_eq]

/-- Writing what was read keeps the number of brackets. -/
theorem brackets_print {lead : Option Text} {t : Text} {c : Candidate}
    (read : parse? lead t = some c) : brackets (c.print lead) = brackets t := by
  obtain ⟨⟨texts, base, last, rfl, each, based, marked⟩, -⟩ := parse_eq_some.mp read
  have variants := brackets_variants each
  have final : brackets c.base.print = brackets last := by
    unfold Marked at marked
    rw [based.brackets_eq]
    split at marked
    · rcases marked with rfl | rfl <;> simp [brackets]
    · rw [marked]
  rw [brackets_eq, brackets_joinWith, variants, final, List.flatten_append, List.flatten_append,
    List.flatten_singleton, brackets_append, brackets_append]

end Candidate
end AtomicCss
