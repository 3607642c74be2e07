import AtomicCss.Proofs.Candidate.Printing
import AtomicCss.Proofs.Variant.Selector

/-! Classes in canonical form. Writing such a class gives it back, so the pieces
that were read are the pieces that are written, and each of them is closed. -/
namespace AtomicCss.Candidate
open Text

variable {lead : Option Text} {raw : Text} {c : Candidate}

theorem Spelt.sound (spelt : Spelt lead raw c) : c.base.Sound := by
  obtain ⟨⟨_, _, _, -, -, based, -⟩, -⟩ := spelt
  exact based.sound

/-- Each piece leaves brackets open or closes one that it did not open. -/
theorem leaves_or_jams_pieces (spelt : Spelt lead raw c) :
    ∀ p ∈ leadTexts lead ++ c.variants.map Variant.print ++ [c.base.print ++ c.mark],
      (∃ n, Leaves n p) ∨ Jams p := by
  intro p member
  rcases List.mem_append.mp member with front | final
  · rcases List.mem_append.mp front with front | piece
    · exact .inl ⟨0, .ofClosed (spelt.lead p front).closed⟩
    · obtain ⟨v, inside, rfl⟩ := List.mem_map.mp piece
      obtain ⟨_, piece⟩ := spelt.variant v inside
      exact piece.leaves_or_jams.imp_left fun leaves => ⟨_, leaves⟩
  · rw [List.mem_singleton.mp final, ← print_alone]
    exact .inl ⟨_, leaves_alone spelt.sound.leaves_print⟩

/-- Where the canonical text is balanced, each piece of it is closed. -/
theorem closed_pieces (spelt : Spelt lead raw c) (holds : balanced (c.print lead) = true) :
    ∀ p ∈ leadTexts lead ++ c.variants.map Variant.print ++ [c.base.print ++ c.mark], Closed p := by
  rw [print_eq] at holds
  exact (balanced_pieces (by decide) (leaves_or_jams_pieces spelt)).mp holds

theorem closed_variant (spelt : Spelt lead raw c) (holds : balanced (c.print lead) = true) :
    ∀ v ∈ c.variants, Closed v.print := by
  intro v member
  refine closed_pieces spelt holds _ ?_
  simp only [List.mem_append, List.mem_map]
  exact .inl (.inr ⟨v, member, rfl⟩)

theorem closed_base (spelt : Spelt lead raw c) (holds : balanced (c.print lead) = true) :
    ∀ t ∈ c.base.texts, Closed t := by
  have leaves := leaves_alone (c := c) spelt.sound.leaves_print
  rw [print_alone] at leaves
  exact loose_eq_zero.mp (leaves.closed_iff.mp (closed_pieces spelt holds _ (by simp)))

theorem solid_pieces (spelt : Spelt lead raw c) (holds : balanced (c.print lead) = true) :
    ∀ p ∈ leadTexts lead ++ c.variants.map Variant.print, Solid ':' p := by
  intro p member
  rcases List.mem_append.mp member with front | piece
  · exact spelt.lead p front
  · obtain ⟨v, inside, rfl⟩ := List.mem_map.mp piece
    obtain ⟨_, variant⟩ := spelt.variant v inside
    exact variant.solid_print (closed_variant spelt holds v inside)

/-- What is known of a class in canonical form. -/
structure Canonical (c : Candidate) : Prop where
  variants : ∀ v ∈ c.variants, Variant.Spelt v.print v ∧ Closed v.print
  base : ∀ t ∈ c.base.texts, Closed t

theorem canonical_of_print (read : parse? lead raw = some c) (same : c.print lead = raw) :
    Canonical c := by
  have spelt := Spelt.read read
  have holds := (parse_iff.mp read).2.1
  rw [← same] at holds
  have base_closed := closed_base spelt holds
  have ⟨⟨texts, base, last, whole, each, based, marked⟩, solid⟩ := spelt
  have read_solid : ∀ p ∈ leadTexts lead ++ texts, Solid ':' p := fun p member =>
    (List.mem_append.mp member).elim (solid p) (Spelt.variants_solid each p)
  -- Both lists of pieces are what the same text is cut into.
  have pieces : texts = c.variants.map Variant.print := by
    have first := segment_joined (by decide) read_solid last
    have second := segment_joined (by decide) (solid_pieces spelt holds) (c.base.print ++ c.mark)
    have final : Solid ':' (c.base.print ++ c.mark) :=
      Spelt.marked_solid (marked_mark c) (based.sound.spelt_print base_closed).solid
    rw [← whole, (Spelt.marked_solid marked based.solid).segment_eq] at first
    rw [← print_eq, same, first, final.segment_eq] at second
    exact List.append_cancel_left (List.append_inj' second rfl).1
  refine ⟨fun v member => ⟨?_, closed_variant spelt holds v member⟩, base_closed⟩
  rw [pieces, List.forall₂_map_left_iff, List.forall₂_same] at each
  exact each v member

end AtomicCss.Candidate
