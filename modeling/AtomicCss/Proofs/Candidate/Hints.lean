import AtomicCss.Proofs.Candidate.Pieces
import AtomicCss.Proofs.Candidate.RoundTrip

/-! Type hints of classes that are printed and read again. Canonical spacing, escaping and the
spaces that reading puts around operators could each make the beginning of a value look like a
hint, or hide a hint that is there. None of them does, whatever stands in front of the utility:
the variants may be read otherwise than they were, but they never take part of the utility. -/
namespace AtomicCss.Candidate
open Text

variable {lead : Option Text} {t : Text} {c c' : Candidate}

/-- Where the canonical text is a class, the utility of that class is the one that was written. -/
theorem base_of_parse_print (read : parse? lead t = some c)
    (again : parse? lead (c.print lead) = some c') : c'.base = c.base.reprint := by
  have spelt := Spelt.read read
  have holds := (parse_iff.mp again).2.1
  have utility : Spelt none (c.base.print ++ c.mark) ⟨c.base.reprint, [], c.important⟩ :=
    ⟨⟨[], c.base.print, c.base.print ++ c.mark, by simp [leadTexts, joinWith, List.intercalate], .nil,
      spelt.sound.spelt_print (closed_base spelt holds), marked_mark c⟩, by simp [leadTexts]⟩
  rw [print_eq] at again
  obtain ⟨_, _, -, -, last⟩ := (parse_joined (solid_pieces spelt holds)).mp again
  rw [utility.complete] at last
  exact (congrArg Candidate.base (Option.some.inj last)).symm

/-- A value between brackets has the same type hint, or none, when its class is read where it
was printed. -/
theorem hint_survives (read : parse? lead t = some c) (again : parse? lead (c.print lead) = some c')
    {root v : Text} {hint : Option Text} {m : Option Argument} {negative : Bool}
    (value : c.base = .functional root (some (.arbitrary v hint)) m negative) :
    ∃ v' m', c'.base = .functional root (some (.arbitrary v' hint)) m' negative := by
  rw [base_of_parse_print read again, value]
  exact ⟨_, _, rfl⟩

/-- Without its spaces the value would begin with the hint `a-b`. -/
theorem guarded_difference_unhinted :
    let c : Candidate := ⟨.functional "x" (some (.arbitrary "a - b:c" none)) none false,
      [.arbitrary "& >p"], true⟩
    ∃ c' v m, parse? none (c.print none) = some c' ∧
      c'.base = .functional "x" (some (.arbitrary v none)) m false := by
  intro c
  have read : parse? none "[>p]:!x-[a_-_b:c]" = some c := by decide +kernel
  have printed : Arbitrary.printUnhinted "a - b:c" = "a_-_b:c" := by
    rw [Arbitrary.printUnhinted, Value.compactText_eq_compact]
    decide +kernel
  have again : parse? none (c.print none) = some c := by
    simp only [print, UtilityTerm.print, c, printed]
    decide +kernel
  obtain ⟨v, m, same⟩ := hint_survives read again rfl
  exact ⟨c, v, m, again, same⟩

end AtomicCss.Candidate
