import AtomicCss.Proofs.Candidate.Printing
import AtomicCss.Proofs.Migration.CallWalk

/-! What replacing theme calls leaves in place: everything in front of the first
call and everything behind the last one. So a value stays visible at both ends,
and it gets no type hint that it did not have. -/
namespace AtomicCss.Migration
open Text

/-- The texts are the same, or they differ only from a theme call to the end of one. -/
def Edited (t t' : Text) : Prop :=
  t' = t ∨ ∃ a name x x' b, (name = "theme".toList ∨ name = "var".toList) ∧
    t = a ++ ("theme".toList ++ '(' :: (x ++ ')' :: b)) ∧ t' = a ++ (name ++ '(' :: (x' ++ ')' :: b))

namespace Edited

variable {t t' u u' : Text}

theorem append (first : Edited t t') (second : Edited u u') : Edited (t ++ u) (t' ++ u') := by
  rcases first with rfl | ⟨a, name, x, x', b, known, rfl, rfl⟩
  · rcases second with rfl | ⟨a, name, x, x', b, known, rfl, rfl⟩
    · exact .inl rfl
    · exact .inr ⟨t' ++ a, name, x, x', b, known, by simp, by simp⟩
  · rcases second with rfl | ⟨a₂, name₂, x₂, x₂', b₂, -, rfl, rfl⟩
    · exact .inr ⟨a, name, x, x', b ++ u', known, by simp, by simp⟩
    · exact .inr ⟨a, name, x ++ ')' :: (b ++ (a₂ ++ ("theme".toList ++ '(' :: x₂))),
        x' ++ ')' :: (b ++ (a₂ ++ (name₂ ++ '(' :: x₂'))), b₂, known, by simp, by simp⟩

/-- A value that is trimmed stays trimmed. -/
theorem trimmed (edited : Edited t t') (trim_same : trim t = t) : trim t' = t' := by
  rcases edited with rfl | ⟨a, name, x, x', b, known, rfl, rfl⟩
  · exact trim_same
  · refine trim_eq_self (fun c head => ?_) (fun c last => ?_)
    · cases a with
      | nil =>
        rcases known with rfl | rfl <;> cases head <;> rfl
      | cons d a =>
        cases head
        exact trim_head trim_same
    · cases b with
      | nil =>
        obtain rfl : ')' = c := by simpa [List.getLast?_append, List.getLast?_cons] using last
        rfl
      | cons d b =>
        refine endsVisibly_of_trimmed trim_same c ?_
        simpa [List.getLast?_append, List.getLast?_cons] using last

theorem ne_nil (edited : Edited t t') (some_left : t ≠ []) : t' ≠ [] := by
  rcases edited with rfl | ⟨a, name, x, x', b, -, rfl, rfl⟩
  · exact some_left
  · simp

/-- A value without a hint gets none. -/
theorem hintless (edited : Edited t t') (none_there : (Arbitrary.splitHint t).1 = none) :
    (Arbitrary.splitHint t').1 = none := by
  rcases edited with rfl | ⟨a, name, x, x', b, known, rfl, rfl⟩
  · exact none_there
  · rw [Arbitrary.hintless_iff] at none_there ⊢
    intro hint rest shape same
    have colon : ':' ∉ name := by rcases known with rfl | rfl <;> decide
    have inside : '(' ∉ hint := by
      obtain ⟨-, -, -, -, all⟩ := shape
      exact fun member => absurd (all _ member) (by decide)
    rcases List.append_eq_append_iff.mp same with ⟨s, rfl, back⟩ | ⟨s, rfl, back⟩
    · -- The hint would reach into the call, which begins with a name and a parenthesis.
      rcases List.append_eq_append_iff.mp back with ⟨r, rfl, tail⟩ | ⟨r, rfl, tail⟩
      · cases r with
        | nil => cases tail
        | cons d r =>
          obtain ⟨rfl, -⟩ := List.cons.inj tail
          exact inside (by simp)
      · cases r with
        | nil => cases tail
        | cons d r =>
          cases tail
          exact colon (by simp)
    · cases s with
      | nil =>
        rcases known with rfl | rfl <;> cases back
      | cons d s =>
        cases back
        exact none_there hint (s ++ ("theme".toList ++ '(' :: (x ++ ')' :: b))) shape (by simp)

end Edited

mutual

theorem edited_replaceCallsNode (theme : Theme) (context : Context) : (n : Value.Node) →
    Edited (Value.renderNode n) (Value.renderNode (replaceCallsNode theme context n))
  | .word t => .inl rfl
  | .separator t => .inl rfl
  | .call name args => by
    rw [replaceCallsNode]
    split
    · rename_i called
      cases node : themeNode? theme context args with
      | none => exact .inl rfl
      | some n =>
        obtain ⟨⟨token, modifier⟩, -, rfl⟩ := Option.map_eq_some_iff.mp node
        refine .inr ?_
        cases modifier with
        | none =>
          cases context
          · exact ⟨[], "var".toList, Value.render args, token, [], .inr rfl, by simp [called],
              by simp [requestNode]⟩
          · exact ⟨[], "theme".toList, Value.render args, token, [], .inl rfl, by simp [called],
              by simp [requestNode]⟩
        | some m =>
          exact ⟨[], "theme".toList, Value.render args, token ++ " / " ++ m, [], .inl rfl,
            by simp [called], by simp [requestNode]⟩
    · have inside := edited_replaceCalls theme context args
      have whole := (Edited.append (.inl rfl : Edited (name ++ ['(']) _) inside).append
        (.inl rfl : Edited [')'] _)
      simpa using whole

theorem edited_replaceCalls (theme : Theme) (context : Context) : (ns : List Value.Node) →
    Edited (Value.render ns) (Value.render (replaceCalls theme context ns))
  | [] => .inl rfl
  | n :: ns => by
    simpa [replaceCalls] using
      (edited_replaceCallsNode theme context n).append (edited_replaceCalls theme context ns)

end

theorem edited_migrateValue (theme : Theme) (context : Context) (t : Text) :
    Edited t (migrateValue theme context t) := by
  have edited := edited_replaceCalls theme context (Value.parse t)
  rwa [Value.render_parse, ← migrateValue_eq_replaceCalls] at edited

end AtomicCss.Migration
