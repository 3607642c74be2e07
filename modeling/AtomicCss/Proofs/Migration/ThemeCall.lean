import AtomicCss.Proofs.Candidate.Brackets
import AtomicCss.Proofs.Migration.CallWalk

/-! Replacing theme calls brings no square bracket in: the brackets of a path
only separate its parts, and a modifier is a part of what was in the call. -/
namespace AtomicCss.Migration
open Text

theorem splitWhere_flatten (p : Char → Bool) (t : Text) :
    (splitWhere p t).flatten = t.filter fun c => !p c := by
  induction t with
  | nil => rfl
  | cons c rest ih =>
    rw [splitWhere]
    split
    · rename_i cut
      simp [ih, cut]
    · rename_i kept
      rw [List.filter_cons_of_pos (by simpa using kept), ← ih]
      cases splitWhere p rest <;> simp [consHead]

/-- The words of a text make up its visible characters. -/
theorem words_flatten (t : Text) : (words t).flatten = ink t := by
  rw [words, List.flatten_filter_not_isEmpty, splitWhere_flatten, ink]

theorem brackets_ink (t : Text) : brackets (ink t) = brackets t :=
  List.count_filter (by decide)

theorem brackets_part {path p : Text} (member : p ∈ pathParts path) : brackets p = 0 := by
  obtain ⟨piece, -⟩ := List.mem_filter.mp member
  have absent : '[' ∉ (splitWhere (· == '.') (replace ']' [] (replace '[' "." path))).flatten := by
    rw [splitWhere_flatten]
    have dotted (c : Char) : '[' ∉ (if c = '[' then ['.'] else [c]) := by
      split
      · decide
      · rename_i other
        simpa using Ne.symm other
    simp [replace, dotted]
  exact List.count_eq_zero.mpr fun inside => absent (List.mem_flatten.mpr ⟨p, piece, inside⟩)

/-- The name of a token has no bracket. -/
theorem brackets_token {theme : Theme} {path name : Text} (found : token? theme path = some name) :
    brackets name = 0 := by
  unfold token? at found
  split at found
  · cases found
  · split at found
    · cases found
    · rename_i root parts cut
      obtain ⟨ns, known, named⟩ := Option.bind_eq_some_iff.mp found
      dsimp only at named
      split at named
      · cases named
        have space : ∀ entry ∈ pathRoots, brackets entry.2 = 0 := by decide
        have first : brackets ns = 0 := by
          obtain ⟨before, after, whole, -⟩ := List.lookup_eq_some_iff.mp known
          exact space (root, ns) (by simp [whole])
        have rest : '[' ∉ (parts.filter (· != Theme.defaultKey)).flatMap fun p => '-' :: p := by
          intro inside
          obtain ⟨p, member, inside⟩ := List.mem_flatMap.mp inside
          have part : p ∈ pathParts path := by simp [cut, (List.mem_filter.mp member).1]
          have none_there := brackets_part part
          exact List.count_eq_zero.mp none_there (by simpa using inside)
        rw [brackets_append, first, brackets, List.count_eq_zero.mpr rest]
      · cases named

theorem brackets_request {theme : Theme} {arguments token : Text} {modifier : Option Text}
    (found : request? theme arguments = some (token, modifier)) :
    brackets token = 0 ∧ ∀ m, modifier = some m → brackets m ≤ brackets arguments := by
  unfold request? at found
  dsimp only at found
  split at found
  · rename_i token' named
    cases found
    exact ⟨brackets_token named, by simp⟩
  · split at found
    · cases found
    · rename_i path behind cut
      split at found
      · cases found
      · obtain ⟨token', named, same⟩ := Option.map_eq_some_iff.mp found
        cases same
        refine ⟨brackets_token named, fun m same => ?_⟩
        cases same
        obtain ⟨whole, -⟩ := splitLast_eq_some.mp cut
        have inside := congrArg brackets whole
        rw [brackets, count_trim] at inside
        simp only [brackets, List.count_append, List.count_cons] at inside
        rw [words_flatten, brackets_ink]
        simp only [brackets]
        omega

mutual

theorem brackets_replaceCallsNode (theme : Theme) (context : Context) : (n : Value.Node) →
    brackets (Value.renderNode (replaceCallsNode theme context n)) ≤ brackets (Value.renderNode n)
  | .word t => by simp [replaceCallsNode]
  | .separator t => by simp [replaceCallsNode]
  | .call name args => by
    rw [replaceCallsNode]
    split
    · rename_i called
      subst called
      cases node : themeNode? theme context args with
      | none => exact Nat.le_refl _
      | some n =>
        obtain ⟨⟨token, modifier⟩, found, rfl⟩ := Option.map_eq_some_iff.mp node
        obtain ⟨nothing, less⟩ := brackets_request found
        cases modifier with
        | none => cases context <;> simp_all [requestNode, brackets]
        | some m =>
          have less := less m rfl
          simp_all [requestNode, brackets]
    · have inside := brackets_replaceCalls theme context args
      simp [brackets] at inside ⊢
      omega

theorem brackets_replaceCalls (theme : Theme) (context : Context) : (ns : List Value.Node) →
    brackets (Value.render (replaceCalls theme context ns)) ≤ brackets (Value.render ns)
  | [] => by simp [replaceCalls]
  | n :: ns => by
    have first := brackets_replaceCallsNode theme context n
    have rest := brackets_replaceCalls theme context ns
    simp [replaceCalls, brackets] at first rest ⊢
    omega

end

theorem brackets_migrateValue (theme : Theme) (context : Context) (t : Text) :
    brackets (migrateValue theme context t) ≤ brackets t := by
  have less := brackets_replaceCalls theme context (Value.parse t)
  rwa [Value.render_parse, ← migrateValue_eq_replaceCalls] at less

end AtomicCss.Migration
