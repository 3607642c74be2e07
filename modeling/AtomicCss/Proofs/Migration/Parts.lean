import AtomicCss.Proofs.Candidate.Pieces
import AtomicCss.Proofs.Candidate.Printing
import AtomicCss.Proofs.Migration.NamedValue
import AtomicCss.Proofs.Migration.Promotion
import AtomicCss.Proofs.Variant.Selector

/-! A migrated class is judged by its parts. As long as the pieces in front of the
utility are closed, each variant is read as if it stood alone, and so is the
utility; a piece that is not closed makes the whole class unreadable. -/
namespace AtomicCss
open Text

namespace Candidate

/-- The text is a class with as many variants and the same mark of importance. -/
def Kept (lead : Option Text) (c : Candidate) (t : Text) : Prop :=
  ∃ c', parse? lead t = some c' ∧ c'.variants.length = c.variants.length ∧
    c'.important = c.important

/-- A utility whose texts are closed is read where it stands alone as a class. -/
theorem parse_alone {c : Candidate} (sound : c.base.Sound) (closed : ∀ t ∈ c.base.texts, Closed t) :
    parse? none (c.alone.print none) =
      some { base := c.base.reprint, variants := [], important := c.important } := by
  refine Spelt.complete ⟨⟨[], c.base.print, c.base.print ++ c.mark, ?_, .nil,
    sound.spelt_print closed, marked_mark c⟩, by simp [leadTexts]⟩
  rw [print_alone]
  simp [leadTexts, joinWith, List.intercalate]

/-- What stands alone as a class leaves no text unclosed. -/
theorem closed_of_alone {c c' : Candidate} (sound : c.base.Sound)
    (read : parse? none (c.alone.print none) = some c') : ∀ t ∈ c.base.texts, Closed t :=
  loose_eq_zero.mp ((leaves_alone sound.leaves_print).balanced_iff.mp (parse_iff.mp read).2.1)

/-- A utility stands alone as a class exactly when its texts are closed. -/
theorem kept_alone {c : Candidate} (sound : c.base.Sound) :
    Kept none c.alone (c.alone.print none) ↔ ∀ t ∈ c.base.texts, Closed t := by
  constructor
  · rintro ⟨c', read, -⟩
    exact closed_of_alone sound read
  · intro closed
    exact ⟨_, parse_alone sound closed, rfl, rfl⟩

/-- What stands alone as a class without variants is the utility and its mark. -/
theorem spelt_of_kept {c c' : Candidate} (start : c.base.print.head? ≠ some '!')
    (some_left : c.base.print ≠ [])
    (read : parse? none (c.base.print ++ c.mark) = some { c' with variants := [] })
    (important : c'.important = c.important) : UtilityTerm.Spelt c.base.print c'.base := by
  obtain ⟨⟨texts, base, last, whole, each, based, marked⟩, -⟩ := Spelt.read read
  cases each
  have whole : c.base.print ++ c.mark = last := by
    simpa [leadTexts, joinWith, List.intercalate] using whole
  subst whole
  have same : base = c.base.print := by
    unfold Marked mark at marked
    rw [important] at marked
    split at marked
    · rcases marked with same | same
      · exact (List.append_cancel_right same).symm
      · have head := congrArg List.head? same
        rw [List.head?_append_of_ne_nil _ some_left] at head
        exact absurd head start
    · simpa using marked.symm
  exact same ▸ based

end Candidate

namespace Migration
open Variant Candidate Promoted DesignSystem

/-- The written forms of promoted variants. -/
def pieces (variants : List Variant) : List Text := variants.map fun v => (promoteVariant v).print

/-- What is known of the pieces that stand in front of a utility. -/
structure Front (lead : Option Text) (pieces : List Text) : Prop where
  lead : ∀ p ∈ leadTexts lead, Solid ':' p
  leaves : ∀ p ∈ pieces, (∃ n, Leaves n p) ∨ Jams p
  solid : ∀ p ∈ pieces, Closed p → Solid ':' p

theorem front_of_spelt {lead : Option Text} {raw : Text} {c : Candidate} (spelt : Spelt lead raw c) :
    Front lead (pieces c.variants) := by
  have each {p : Text} (member : p ∈ pieces c.variants) :
      ((∃ n, Leaves n p) ∨ Jams p) ∧ (Closed p → Solid ':' p) := by
    obtain ⟨v, inside, rfl⟩ := List.mem_map.mp member
    obtain ⟨t, spelt⟩ := spelt.variant v inside
    by_cases named : IsSelector v
    · obtain ⟨selector, rfl⟩ := named
      rw [show promoteVariant (.arbitrary selector) = .arbitrary selector from rfl]
      exact ⟨spelt.leaves_or_jams.imp_left fun leaves => ⟨_, leaves⟩, spelt.solid_print⟩
    · have leaves := leaves_print spelt named
      exact ⟨.inl ⟨_, leaves⟩, fun closed =>
        solid_print spelt named (loose_eq_zero.mp (leaves.closed_iff.mp closed))⟩
  exact ⟨spelt.lead, fun p member => (each member).1, fun p member => (each member).2⟩

/-- The class as it is written with promoted variants. -/
def promotedVariants (c : Candidate) : Candidate :=
  { c with variants := c.variants.map promoteVariant }

theorem print_promoted (lead : Option Text) (c : Candidate) :
    (promotedVariants c).print lead =
      joinWith [':'] (leadTexts lead ++ pieces c.variants ++ [c.alone.print none]) := by
  rw [print_alone, Candidate.print_eq, pieces]
  simp only [promotedVariants, List.map_map]
  rfl

/-- Either nothing is promoted behind the variants, or a value is. -/
theorem promote_cases (system : DesignSystem) (c : Candidate) :
    promote system c = promotedVariants c ∨
      ∃ p, promoteValue? system (promotedVariants c) = some p ∧ promote system c = p := by
  have same : promote system c =
      (promoteValue? system (promotedVariants c)).getD (promotedVariants c) := rfl
  cases found : promoteValue? system (promotedVariants c) with
  | none => exact .inl (by rw [same, found]; rfl)
  | some p => exact .inr ⟨p, rfl, by rw [same, found]; rfl⟩

/-- What is known of a utility with a value, whatever text stands between its brackets. -/
def Shaped (c : Candidate) : Prop := ∀ root v m negative,
  c.base = .functional root (some v) m negative →
    UtilityTerm.isRoot root = true ∧ ∃ behind, ModifierSpelt behind m

theorem shaped_of_sound {c : Candidate} (sound : c.base.Sound) : Shaped c := by
  intro root v m negative based
  rw [based] at sound
  cases sound with
  | named _ shape _ modifier => exact ⟨shape, _, modifier⟩
  | arbitrary _ shape _ modifier => exact ⟨shape, _, modifier⟩

section

variable {lead : Option Text} {c : Candidate} (front : Front lead (pieces c.variants))

include front

theorem solid_front (closed : ∀ p ∈ pieces c.variants, Closed p) :
    ∀ p ∈ leadTexts lead ++ pieces c.variants, Solid ':' p := fun p member =>
  (List.mem_append.mp member).elim (front.lead p) fun inside => front.solid p inside (closed p inside)

/-- With closed pieces in front, the variants and the utility are judged apart. -/
theorem kept_of_closed (closed : ∀ p ∈ pieces c.variants, Closed p) :
    Kept lead c ((promotedVariants c).print lead) ↔
      ((pieces c.variants).mapM Variant.parse?).isSome = true ∧
        Kept none c.alone (c.alone.print none) := by
  have solid := solid_front front closed
  have length {front : List Variant} (first : (pieces c.variants).mapM Variant.parse? = some front) :
      front.length = c.variants.length := by
    simpa [pieces] using (mapM_eq_some.mp first).length_eq.symm
  rw [print_promoted]
  constructor
  · rintro ⟨c', read, count, important⟩
    obtain ⟨front, back, parts, first, rest⟩ := (parse_joined solid).mp read
    obtain rfl : back = [] := by
      rw [parts, List.length_append, length first] at count
      exact List.eq_nil_of_length_eq_zero (by omega)
    exact ⟨by rw [first]; rfl, _, rest, rfl, important⟩
  · rintro ⟨each, c', read, count, important⟩
    obtain ⟨front, first⟩ := Option.isSome_iff_exists.mp each
    have nothing : c'.variants = [] := List.eq_nil_of_length_eq_zero count
    refine ⟨{ c' with variants := front }, ?_, length first, important⟩
    refine (parse_joined solid).mpr ⟨front, [], by simp, first, ?_⟩
    rw [read, ← nothing]

/-- A class that leaves brackets open is lost. -/
theorem closed_of_balanced (leaves : ∃ n, Leaves n (c.alone.print none))
    (holds : balanced ((promotedVariants c).print lead) = true) :
    ∀ p ∈ pieces c.variants, Closed p := by
  rw [print_promoted, balanced_pieces (by decide)] at holds
  · exact fun p member => holds p (by simp [member])
  · intro p member
    rcases List.mem_append.mp member with inside | last
    · rcases List.mem_append.mp inside with lead | piece
      · exact .inl ⟨0, .ofClosed (front.lead p lead).closed⟩
      · exact front.leaves p piece
    · rw [List.mem_singleton.mp last]
      exact .inl leaves

/-- The parts of a promoted class are judged apart. -/
theorem kept_promoted
    (apart : (∀ p ∈ pieces c.variants, Closed p) ∨ ∃ n, Leaves n (c.alone.print none)) :
    Kept lead c ((promotedVariants c).print lead) ↔ (∀ p ∈ pieces c.variants, Closed p) ∧
      ((pieces c.variants).mapM Variant.parse?).isSome = true ∧
        Kept none c.alone (c.alone.print none) := by
  constructor
  · intro kept
    have closed : ∀ p ∈ pieces c.variants, Closed p := by
      rcases apart with closed | leaves
      · exact closed
      · obtain ⟨c', read, -⟩ := kept
        exact closed_of_balanced front leaves (parse_iff.mp read).2.1
    exact ⟨closed, (kept_of_closed front closed).mp kept⟩
  · rintro ⟨closed, rest⟩
    exact (kept_of_closed front closed).mpr rest

/-- What a promoted value says about the class. It was read where the name was
written, so nothing in front of it or behind it leaves a bracket open. -/
structure PromotedParts (lead : Option Text) (c p : Candidate) : Prop where
  closed : ∀ t ∈ pieces c.variants, Closed t
  variants : ((pieces c.variants).mapM Variant.parse?).isSome = true
  print_eq : p.print lead = (promotedVariants { c with base := p.base }).print lead
  sound : p.base.Sound
  texts : ∀ t ∈ p.base.texts, Closed t
  sound_before : c.base.Sound
  texts_before : ∀ t ∈ c.base.texts, Closed t
  /-- The utility is what the name reads as. -/
  base : ∃ root t m negative, c.base = .functional root (some (.arbitrary t none)) m negative ∧
    UtilityTerm.isRoot root = true ∧ isBareValue t = true ∧
    UtilityTerm.Spelt (namedMain root t negative ++ Argument.printModifier m) p.base

theorem promotedParts {system : DesignSystem} (lead_same : lead = system.lead) (shaped : Shaped c)
    {p : Candidate} (found : promoteValue? system (promotedVariants c) = some p) :
    PromotedParts lead c p := by
  subst lead_same
  obtain ⟨named, value, read, printed, important⟩ := promoteValue_eq_some found
  obtain ⟨root, t, m, negative, based, bare, rfl⟩ := withNamedValue_eq_some value
  have based : c.base = .functional root (some (.arbitrary t none)) m negative := based
  obtain ⟨shape, behind, modifier⟩ := shaped _ _ _ _ based
  let d : Candidate := { c with base := .functional root (some (.named t)) m negative }
  have read : parse? system.lead ((promotedVariants d).print system.lead) = some p := read
  have count : p.variants.length = c.variants.length := by
    simpa [promotedVariants] using congrArg List.length printed
  have leaves : Leaves (loose (Argument.texts m)) (d.alone.print none) := by
    refine leaves_alone ?_
    rw [print_named]
    simpa using (Leaves.ofClosed (namedMain_plain shape bare).1).append modifier.leaves_print
  obtain ⟨closed, variants, alone⟩ := (kept_promoted (c := d) front (.inr ⟨_, leaves⟩)).mp
    ⟨p, read, count, important⟩
  have closed_modifier : ∀ v ∈ Argument.texts m, Closed v := by
    obtain ⟨c', read', -⟩ := alone
    exact loose_eq_zero.mp (leaves.balanced_iff.mp (parse_iff.mp read').2.1)
  have spelt : UtilityTerm.Spelt d.base.print p.base := by
    rw [print_promoted] at read
    obtain ⟨first, back, parts, each, rest⟩ := (parse_joined (solid_front front closed)).mp read
    have length : first.length = c.variants.length := by
      simpa [pieces] using (mapM_eq_some.mp each).length_eq.symm
    obtain rfl : back = [] := by
      rw [parts, List.length_append, length] at count
      exact List.eq_nil_of_length_eq_zero (by omega)
    obtain ⟨e, others, head, -, other⟩ := namedMain_head t negative shape
    rw [print_alone] at rest
    refine spelt_of_kept ?_ ?_ rest important <;> rw [print_named, head] <;> simp [other]
  rw [print_named] at spelt
  refine ⟨closed, variants, ?_, spelt.sound, ?_, ?_, ?_, root, t, m, negative, based, shape, bare, spelt⟩
  · rw [Candidate.print_eq, Candidate.print_eq, printed, mark, important]
    rfl
  · exact closed_of_spelt_named shape bare modifier closed_modifier spelt
  · rw [based]
    exact .arbitrary negative shape (reading_of_bare bare) modifier
  · rw [based]
    exact List.forall_mem_cons.mpr ⟨closed_of_bare bare, closed_modifier⟩

/-- The parts of a migrated class are judged apart, whether or not its value is promoted. -/
theorem kept_promote {system : DesignSystem} (lead_same : lead = system.lead) (shaped : Shaped c)
    (apart : (∀ p ∈ pieces c.variants, Closed p) ∨ ∃ n, Leaves n (c.alone.print none)) :
    Kept lead c (system.printCandidate (promote system c)) ↔ (∀ p ∈ pieces c.variants, Closed p) ∧
      ((pieces c.variants).mapM Variant.parse?).isSome = true ∧
        Kept none c.alone (c.alone.print none) := by
  rcases promote_cases system c with same | ⟨p, found, same⟩
  · rw [same, DesignSystem.printCandidate, ← lead_same]
    exact kept_promoted front apart
  · have parts := promotedParts front lead_same shaped found
    have before := (kept_alone parts.sound_before).mpr parts.texts_before
    have after : Kept none { c with base := p.base }.alone ({ c with base := p.base }.alone.print none) :=
      (kept_alone (c := { c with base := p.base }) parts.sound).mpr parts.texts
    rw [same, DesignSystem.printCandidate, ← lead_same, parts.print_eq]
    have kept := (kept_promoted (c := { c with base := p.base }) front (.inl parts.closed)).mpr
      ⟨parts.closed, parts.variants, after⟩
    exact ⟨fun _ => ⟨parts.closed, parts.variants, before⟩, fun _ => kept⟩

end

end Migration
end AtomicCss
