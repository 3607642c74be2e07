import AtomicCss.Proofs.Candidate.Spelling

/-! A class put together from pieces. Solid pieces in front are read one by one,
as if each stood alone, and the rest is read as if nothing stood in front of it. -/
namespace AtomicCss.Candidate
open Text

theorem utility_empty : UtilityTerm.parse? [] = none := by
  cases read : UtilityTerm.parse? [] with
  | none => rfl
  | some u => exact absurd rfl (UtilityTerm.Spelt.read rfl read).head_ne.1

theorem mapM_append_eq_some {α β : Type} {f : α → Option β} {as as' : List α} {bs : List β} :
    (as ++ as').mapM f = some bs ↔
      ∃ front back, bs = front ++ back ∧ as.mapM f = some front ∧ as'.mapM f = some back := by
  rw [List.mapM_append]
  simp only [Option.bind_eq_bind, Option.bind_eq_some_iff, pure, Option.some.injEq]
  constructor
  · rintro ⟨front, first, back, second, same⟩
    exact ⟨front, back, same.symm, first, second⟩
  · rintro ⟨front, back, same, first, second⟩
    exact ⟨front, first, back, second, same.symm⟩

theorem mapM_isSome {α β : Type} {f : α → Option β} {as : List α} :
    (as.mapM f).isSome = true ↔ ∀ a ∈ as, (f a).isSome = true := by
  induction as with
  | nil => simp
  | cons a as ih =>
    rw [List.forall_mem_cons, ← ih, List.mapM_cons]
    cases f a with
    | none => simp
    | some b => cases as.mapM f <;> simp

/-- A class that begins with solid pieces. -/
theorem parse_joined {lead : Option Text} {pieces : List Text} {last : Text} {c : Candidate}
    (solid : ∀ p ∈ leadTexts lead ++ pieces, Solid ':' p) :
    parse? lead (joinWith [':'] (leadTexts lead ++ pieces ++ [last])) = some c ↔
      ∃ front back, c.variants = front ++ back ∧ pieces.mapM Variant.parse? = some front ∧
        parse? none last = some { c with variants := back } := by
  have colon : Neutral ':' := by decide
  have cut := segment_joined colon solid last
  have same := balanced_joined colon (fun p member => (solid p member).closed) last
  have some_piece : segment ':' last ≠ [] := segmentFrom_ne_nil ':' .plain [] last
  rw [parse_iff, cut, same]
  constructor
  · rintro ⟨-, holds, front, final, base, whole, mark, each, based⟩
    obtain ⟨others, tail, split⟩ := (List.eq_nil_or_concat (segment ':' last)).resolve_left some_piece
    rw [List.concat_eq_append] at split
    rw [split, List.append_assoc, List.append_assoc, List.append_cancel_left_eq,
      ← List.append_assoc] at whole
    obtain ⟨rfl, final_same⟩ := List.append_inj' whole rfl
    obtain rfl := List.singleton_inj.mp final_same
    obtain ⟨first, second, parts, read, rest⟩ := mapM_append_eq_some.mp each
    have some_left : last ≠ [] := by
      rintro rfl
      have only : others ++ [tail] = [[]] := by simpa [Text.segment, segmentFrom] using split.symm
      obtain rfl : tail = [] := by simpa using congrArg List.getLast? only
      obtain ⟨rfl, -⟩ := Prod.mk.inj (Option.some.inj mark)
      rw [utility_empty] at based
      cases based
    exact ⟨first, second, parts, read,
      parse_iff.mpr ⟨some_left, holds, others, tail, base, split, mark, rest, based⟩⟩
  · rintro ⟨front, back, parts, read, rest⟩
    obtain ⟨some_left, holds, others, tail, base, split, mark, each, based⟩ := parse_iff.mp rest
    rw [split]
    refine ⟨fun empty => ?_, holds, pieces ++ others, tail, base, by simp [leadTexts], mark, ?_, based⟩
    · rw [empty, split] at cut
      have count := congrArg List.length cut
      have nothing : leadTexts lead ++ pieces = [] := by
        refine List.eq_nil_of_length_eq_zero ?_
        simp only [Text.segment, segmentFrom, List.length_append, List.length_cons, List.length_nil]
          at count ⊢
        omega
      rw [nothing] at empty
      exact some_left (by simpa [joinWith, List.intercalate] using empty)
    · rw [parts]
      exact mapM_append_eq_some.mpr ⟨front, back, rfl, read, each⟩

end AtomicCss.Candidate
