import AtomicCss.Proofs.Candidate.Named
import AtomicCss.Proofs.Candidate.Pieces

/-! The class prefix is a wrapper. It stands in front of a colon, where neither the check of the
brackets nor the splitting sees more than one piece that is closed, so the rest of the class is
read as if it stood alone, whatever it is: empty, unbalanced, or marked as important at either end. -/
namespace AtomicCss.Candidate
open Text

theorem leadTexts_of_ne_nil {p : Text} (nonempty : p ≠ []) : leadTexts (some p) = [p] := by
  cases p with
  | nil => exact absurd rfl nonempty
  | cons d p => rfl

theorem joinWith_behind (sep : Char) (p : Text) {pieces : List Text} (some_piece : pieces ≠ []) :
    joinWith [sep] (p :: pieces) = p ++ sep :: joinWith [sep] pieces := by
  obtain ⟨next, pieces, rfl⟩ := List.exists_cons_of_ne_nil some_piece
  exact joinWith_cons_cons [sep] p next pieces

/-- The texts between colons, with the prefix in front of them. -/
theorem joinWith_lead {p : Text} (nonempty : p ≠ []) (front : List Text) (last : Text) :
    joinWith [':'] (leadTexts (some p) ++ front ++ [last]) = p ++ ':' :: joinWith [':'] (front ++ [last]) := by
  rw [leadTexts_of_ne_nil nonempty, List.append_assoc, List.singleton_append]
  exact joinWith_behind ':' p (by simp)

/-- Behind the prefix stands what is read without one. -/
theorem parse_behind {p : Text} (nonempty : p ≠ []) (solid : Solid ':' p) (r : Text) :
    parse? (some p) (p ++ ':' :: r) = parse? none r := by
  have front : ∀ piece ∈ leadTexts (some p) ++ [], Solid ':' piece := by
    simpa [leadTexts_of_ne_nil nonempty] using solid
  have whole : joinWith [':'] (leadTexts (some p) ++ [] ++ [r]) = p ++ ':' :: r := by
    simpa [joinWith, List.intercalate] using joinWith_lead nonempty [] r
  ext c
  rw [← whole, parse_joined front]
  constructor
  · rintro ⟨before, behind, variants, nothing, read⟩
    obtain rfl : before = [] := (Option.some.inj nothing).symm
    rwa [← List.nil_append behind, ← variants] at read
  · exact fun read => ⟨[], c.variants, rfl, rfl, read⟩

/-- What is read with a prefix begins with it and a colon. -/
theorem behind_of_parse {p t : Text} {c : Candidate} (nonempty : p ≠ [])
    (read : parse? (some p) t = some c) : ∃ r, t = p ++ ':' :: r := by
  obtain ⟨-, -, front, last, -, pieces, -⟩ := parse_iff.mp read
  have whole := joinWith_segment ':' t
  rw [pieces, joinWith_lead nonempty] at whole
  exact ⟨_, whole.symm⟩

theorem print_behind {p : Text} (nonempty : p ≠ []) (c : Candidate) :
    c.print (some p) = p ++ ':' :: c.print none := by
  rw [print_eq, joinWith_lead nonempty, print_eq]
  rfl

/-- A class behind a prefix and a colon is read as it is without them, and nothing else is read.
What is written with the prefix is what is written without it, behind the prefix and a colon. -/
theorem prefix_wraps {p : Text} (nonempty : p ≠ []) (letters : ∀ d ∈ p, d.isLower = true) :
    (∀ r, parse? (some p) (p ++ ':' :: r) = parse? none r) ∧
      (∀ t, (∀ r, t ≠ p ++ ':' :: r) → parse? (some p) t = none) ∧
      ∀ c : Candidate, c.print (some p) = p ++ ':' :: c.print none := by
  have name : NameLike p := fun d member => by simp [isNameChar, isAlphanum_of_lower (letters d member)]
  refine ⟨parse_behind nonempty (name.solid (by decide)), fun t other => ?_, print_behind nonempty⟩
  refine Option.eq_none_iff_forall_ne_some.mpr fun c read => ?_
  obtain ⟨r, whole⟩ := behind_of_parse nonempty read
  exact other r whole

theorem short_prefix_wraps :
    let p : Text := "tw"
    (∀ r, parse? (some p) (p ++ ':' :: r) = parse? none r) ∧
      (∀ t, (∀ r, t ≠ p ++ ':' :: r) → parse? (some p) t = none) ∧
      ∀ c : Candidate, c.print (some p) = p ++ ':' :: c.print none :=
  prefix_wraps (by decide) (forall_of_all rfl)

end AtomicCss.Candidate
