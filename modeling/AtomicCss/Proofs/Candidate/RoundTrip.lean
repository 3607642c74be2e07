import AtomicCss.Proofs.Arbitrary.Legibility
import AtomicCss.Proofs.Candidate.Canonical

/-! Reading the canonical text of a class. It is the same class, up to the spaces
between brackets, exactly when each text is legible where it is written. -/
namespace AtomicCss
open Text Variant

namespace Arbitrary

theorem legible_compactText_iff {v : Text} (reading : Reading v) :
    Legible (Value.compactText v) ↔
      Closed v ∧ Value.compactText (reprint v) = Value.compactText v := by
  rw [legible_iff (compact_compactText reading), closed_of_thinned (Value.thinned_compactText v), reprint]

theorem legible_unhinted_iff {v : Text} (reading : Reading v) (settled : Settled .start v) :
    Legible (unhinted v) ↔
      Closed v ∧ Value.compactText (reprintUnhinted v) = Value.compactText v := by
  unfold reprintUnhinted unhinted
  split
  · rw [reading.trimmed]
    exact legible_settled_iff reading settled
  · exact legible_compactText_iff reading

end Arbitrary

namespace Argument

/-- The argument in canonical spacing. -/
def compact : Argument → Argument
  | .named t => .named t
  | .arbitrary t => .arbitrary (Value.compactText t)

theorem legible_iff {m : Option Argument} (readings : ∀ v ∈ texts m, Arbitrary.Reading v) :
    (∀ k ∈ (texts m).map Value.compactText, Arbitrary.Legible k) ↔
      (∀ v ∈ texts m, Closed v) ∧ (m.map reprint).map compact = m.map compact := by
  rcases m with _ | (t | v)
  · simp [texts]
  · simp [texts, reprint, compact]
  · simpa [texts, reprint, compact] using
      Arbitrary.legible_compactText_iff (readings v (by simp [texts]))

end Argument

namespace Variant

/-- The variant with its texts in canonical spacing. -/
def compact : Variant → Variant
  | .static root => .static root
  | .functional root value m => .functional root (value.map Argument.compact) (m.map Argument.compact)
  | .arbitrary selector => .arbitrary selector
  | .compound root m inner => .compound root (m.map Argument.compact) inner.compact

theorem legible_iff {v : Variant} (printable : v.Printable) :
    (∀ k ∈ v.texts.map Value.compactText, Arbitrary.Legible k) ↔
      (∀ w ∈ v.texts, Closed w) ∧ v.reprint.compact = v.compact := by
  have readings := printable.reading
  induction printable with
  | static => simp [reprint, compact, texts]
  | functional =>
    obtain ⟨value, modifier⟩ := List.forall_mem_append.mp readings
    simp only [reprint, compact, texts, List.map_append, List.forall_mem_append, functional.injEq,
      true_and, Argument.legible_iff value, Argument.legible_iff modifier]
    exact and_and_and_comm
  | compound _ _ _ ih =>
    obtain ⟨modifier, inner⟩ := List.forall_mem_append.mp readings
    simp only [reprint, compact, texts, List.map_append, List.forall_mem_append, compound.injEq, true_and,
      Argument.legible_iff modifier, ih inner]
    exact and_and_and_comm

end Variant

namespace UtilityTerm

/-- The utility with its texts in canonical spacing. -/
def compact : UtilityTerm → UtilityTerm
  | .functional root (some (.arbitrary v hint)) m negative =>
    .functional root (some (.arbitrary (Value.compactText v) hint)) (m.map Argument.compact) negative
  | .functional root value m negative => .functional root value (m.map Argument.compact) negative
  | .property name v m => .property name (Value.compactText v) (m.map Argument.compact)
  | .static root negative => .static root negative

/-- The texts as they are written, before they are escaped. -/
def writings : UtilityTerm → List Text
  | .functional _ (some (.arbitrary v none)) m _ =>
    Arbitrary.unhinted v :: (Argument.texts m).map Value.compactText
  | u => u.texts.map Value.compactText

/-- The operators of a value without a hint have the spaces they can get. -/
def Spaced (u : UtilityTerm) : Prop := ∀ root v m negative,
  u = .functional root (some (.arbitrary v none)) m negative → Arbitrary.Settled .start v

theorem Spelt.spaced {t : Text} {u : UtilityTerm} (spelt : Spelt t u) : u.Spaced := by
  rintro root v m negative rfl
  cases spelt with
  | main negative main =>
    cases main with
    | arbitrary _ _ _ read =>
      obtain ⟨inner, hint, rest, decoded, split, -, same⟩ := arbitraryValue_eq_some read
      obtain ⟨rfl, rfl⟩ := UtilityValue.arbitrary.inj same
      obtain rfl := Arbitrary.splitHint_none split
      rw [← (Arbitrary.decodeTrimmed_eq decoded).1, trim_trim, (Arbitrary.decodeTrimmed_eq decoded).1]
      exact Arbitrary.settled_decodeTrimmed decoded

theorem legible_writings_iff {u : UtilityTerm} (sound : u.Sound) (spaced : u.Spaced) :
    (∀ k ∈ u.writings, Arbitrary.Legible k) ↔
      (∀ v ∈ u.texts, Closed v) ∧ u.reprint.compact = u.compact := by
  cases sound with
  | static => simp [writings, texts, reprint, compact]
  | bare _ _ _ modifier =>
    simp only [writings, texts, reprint, compact, Argument.legible_iff modifier.reading,
      functional.injEq, true_and, and_true]
  | named _ _ _ modifier =>
    simp only [writings, texts, reprint, compact, Argument.legible_iff modifier.reading,
      functional.injEq, true_and, and_true]
  | @arbitrary root v _ hint m _ _ value modifier =>
    cases hint with
    | none =>
      have first : Arbitrary.Legible (Arbitrary.unhinted v) ↔
          Closed v ∧ Value.compactText (ValueReading.reprint v none) = Value.compactText v :=
        Arbitrary.legible_unhinted_iff value.reading (spaced _ _ _ _ rfl)
      simp only [writings, texts, reprint, compact, List.forall_mem_cons, first,
        Argument.legible_iff modifier.reading, functional.injEq, Option.some.injEq,
        UtilityValue.arbitrary.injEq, true_and, and_true]
      exact and_and_and_comm
    | some h =>
      have first : Arbitrary.Legible (Value.compactText v) ↔
          Closed v ∧ Value.compactText (ValueReading.reprint v (some h)) = Value.compactText v :=
        Arbitrary.legible_compactText_iff value.reading
      simp only [writings, texts, reprint, compact, List.map_cons, List.forall_mem_cons, first,
        Argument.legible_iff modifier.reading, functional.injEq, Option.some.injEq,
        UtilityValue.arbitrary.injEq, true_and, and_true]
      exact and_and_and_comm
  | property _ value modifier =>
    simp only [writings, texts, reprint, compact, List.map_cons, List.forall_mem_cons,
      Arbitrary.legible_compactText_iff value, Argument.legible_iff modifier.reading, property.injEq,
      true_and]
    exact and_and_and_comm

end UtilityTerm

namespace Candidate

theorem Spelt.spaced {lead : Option Text} {t : Text} {c : Candidate} (spelt : Spelt lead t c) :
    c.base.Spaced := by
  obtain ⟨⟨_, _, _, -, -, based, -⟩, -⟩ := spelt
  exact based.spaced

/-- The class with its texts in canonical spacing. -/
def compact (c : Candidate) : Candidate :=
  { c with base := c.base.compact, variants := c.variants.map Variant.compact }

/-- The texts between brackets as they are written, before they are escaped. -/
def writings (c : Candidate) : List Text :=
  c.variants.flatMap (fun v => v.texts.map Value.compactText) ++ c.base.writings

/-- The class as it is read where it was printed. -/
def reprint (c : Candidate) : Candidate :=
  { c with base := c.base.reprint, variants := c.variants.map Variant.reprint }

section

variable {lead : Option Text} {t : Text} {c : Candidate}

variable (spelt : Spelt lead t c)

include spelt

/-- Where the canonical text is a class, no text takes a bracket out of play. -/
theorem closed_of_parse_print {c' : Candidate} (read : parse? lead (c.print lead) = some c') :
    ∀ w ∈ c.texts, Closed w := by
  have holds := (parse_iff.mp read).2.1
  intro w member
  rcases List.mem_append.mp member with front | base
  · obtain ⟨v, inside, member⟩ := List.mem_flatMap.mp front
    obtain ⟨_, piece⟩ := spelt.variant v inside
    exact piece.closed_texts (closed_variant spelt holds v inside) w member
  · exact closed_base spelt holds w base

variable (named : ∀ v ∈ c.variants, ¬ IsSelector v)

include named

/-- A class whose texts are closed is read where it was printed. -/
theorem parse_print (closed : ∀ w ∈ c.texts, Closed w) :
    parse? lead (c.print lead) = some c.reprint := by
  obtain ⟨front, base⟩ := List.forall_mem_append.mp closed
  refine Spelt.complete ⟨⟨c.variants.map Variant.print, c.base.print, c.base.print ++ c.mark,
    print_eq lead c, ?_, spelt.sound.spelt_print base, marked_mark c⟩, spelt.lead⟩
  rw [reprint, List.forall₂_map_left_iff, List.forall₂_map_right_iff, List.forall₂_same]
  intro v member
  obtain ⟨_, piece⟩ := spelt.variant v member
  exact piece.reprint (named v member) fun w inside => front w (List.mem_flatMap.mpr ⟨v, member, inside⟩)

theorem legible_iff (spaced : c.base.Spaced) : (∀ k ∈ c.writings, Arbitrary.Legible k) ↔
    (∀ w ∈ c.texts, Closed w) ∧ c.reprint.compact = c.compact := by
  have variants : (∀ v ∈ c.variants, ∀ k ∈ v.texts.map Value.compactText, Arbitrary.Legible k) ↔
      ∀ v ∈ c.variants, (∀ w ∈ v.texts, Closed w) ∧ v.reprint.compact = v.compact := by
    refine forall₂_congr fun v member => ?_
    obtain ⟨_, piece⟩ := spelt.variant v member
    exact Variant.legible_iff (piece.printable (named v member))
  have same : c.reprint.compact = c.compact ↔
      (∀ v ∈ c.variants, v.reprint.compact = v.compact) ∧ c.base.reprint.compact = c.base.compact := by
    simp [reprint, compact, and_comm]
  rw [writings, texts, List.forall_mem_append, List.forall_mem_append, List.forall_mem_flatMap,
    List.forall_mem_flatMap, variants, UtilityTerm.legible_writings_iff spelt.sound spaced, same,
    forall₂_and]
  exact and_and_and_comm

end

/-- A class comes back from its canonical text, up to the spaces between brackets,
exactly when every text is legible where it is written. -/
theorem class_comes_back_iff {lead : Option Text} {t : Text} {c : Candidate} (read : parse? lead t = some c)
    (named : ∀ v ∈ c.variants, ¬ IsSelector v) :
    (∃ c', parse? lead (c.print lead) = some c' ∧ c'.compact = c.compact) ↔
      ∀ k ∈ c.writings, Arbitrary.Legible k := by
  have spelt := Spelt.read read
  rw [legible_iff spelt named spelt.spaced]
  constructor
  · rintro ⟨c', again, same⟩
    have closed := closed_of_parse_print spelt again
    rw [parse_print spelt named closed] at again
    cases again
    exact ⟨closed, same⟩
  · exact fun ⟨closed, same⟩ => ⟨c.reprint, parse_print spelt named closed, same⟩

theorem prefixed_sum_comes_back :
    let c : Candidate := ⟨.functional "w" (some (.arbitrary "calc(1 + 2)" none))
      (some (.arbitrary "x y")) true,
      [.compound "group" none (.functional "data" (some (.arbitrary "a_b")) none)], true⟩
    ∃ c', parse? (some "tw") (c.print (some "tw")) = some c' ∧ c'.compact = c.compact := by
  intro c
  have read : parse? (some "tw") "tw:group-data-[a\\_b]:!-w-[calc(1+2)]/[x_y]" = some c := by decide +kernel
  have legible : ∀ k ∈ c.writings, Arbitrary.Legible k := by
    have writings : c.writings =
        [Value.compactText "a_b", Arbitrary.unhinted "calc(1 + 2)", Value.compactText "x y"] := rfl
    rw [writings, Arbitrary.unhinted]
    simp only [Value.compactText_eq_compact]
    decide +kernel
  exact (class_comes_back_iff read (by simp [c, IsSelector])).mpr legible

/-- The space that spacing out puts behind a backslash is lost where it is written. -/
theorem escaped_star_changes :
    ¬ ∀ (lead : Option Text) (t : Text) (c : Candidate), parse? lead t = some c →
      (∀ v ∈ c.variants, ¬ IsSelector v) →
        ∃ c', parse? lead (c.print lead) = some c' ∧ c'.compact = c.compact := by
  intro comes_back
  let c : Candidate := ⟨.functional "w" (some (.arbitrary "calc(1\\ * 2)" none)) none false, [], false⟩
  obtain ⟨c', read, same⟩ := comes_back none "w-[calc(1\\*2)]" c (by decide +kernel) (by simp [c])
  have other : parse? none (c.print none) =
      some ⟨.functional "w" (some (.arbitrary "calc(1_ * 2)" none)) none false, [], false⟩ := by
    decide +kernel
  rw [other] at read
  cases read
  simp only [compact, UtilityTerm.compact, c, Value.compactText_eq_compact] at same
  exact absurd same (by decide +kernel)

end Candidate

end AtomicCss
