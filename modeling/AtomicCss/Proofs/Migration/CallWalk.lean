import AtomicCss.Migration.ThemeCall
import AtomicCss.Proofs.Value.Walk

/-! Theme calls by plain recursion. The outermost ones are replaced where they name
a token, which is what the walk does. A text in which none begins is left alone
before it is read, and the recursion would change nothing in it either. -/
namespace AtomicCss

/-- A part occurs exactly if it stands somewhere. -/
theorem Text.occurs_iff (part t : Text) : occurs part t = true ↔ part <:+: t := by
  induction t with
  | nil => simp [occurs]
  | cons c rest ih => rw [occurs, Bool.or_eq_true, List.isPrefixOf_iff_prefix, ih, List.infix_cons_iff]

namespace Migration
open Value

variable (theme : Theme) (context : Context)

mutual

/-- Replaces the outermost theme calls. What a call keeps is not looked into. -/
def replaceCallsNode (theme : Theme) (context : Context) : Value.Node → Value.Node
  | .word t => .word t
  | .separator t => .separator t
  | .call name args =>
    if name = "theme" then (themeNode? theme context args).getD (.call name args)
    else .call name (replaceCalls theme context args)

def replaceCalls (theme : Theme) (context : Context) : List Value.Node → List Value.Node
  | [] => []
  | n :: ns => replaceCallsNode theme context n :: replaceCalls theme context ns

end

mutual

theorem rewriteNode_replaceTheme (p : Position) : (n : Node) →
    (rewriteNode (replaceTheme theme context) p () n).nodes = [replaceCallsNode theme context n]
  | .word t => by rw [rewriteNode_kept (.inr ⟨rfl, by simp⟩) rfl, replaceCallsNode]
  | .separator t => by rw [rewriteNode_kept (.inr ⟨rfl, by simp⟩) rfl, replaceCallsNode]
  | .call name args => by
    rw [replaceCallsNode]
    by_cases called : name = "theme"
    · rw [if_pos called]
      cases node : themeNode? theme context args with
      | none =>
        have answer : replaceTheme theme context (.call name args) p () = (.skip, ()) := by
          simp only [replaceTheme, if_pos called, node]
        rw [rewriteNode_kept (.inl rfl) answer]
        rfl
      | some n =>
        have answer : replaceTheme theme context (.call name args) p () = (.replace [n], ()) := by
          simp only [replaceTheme, if_pos called, node]
        rw [rewriteNode_replaced answer]
        rfl
    · have answer : replaceTheme theme context (.call name args) p () = (.descend, ()) := if_neg called
      have arguments := rewrite_replaceTheme (Row.below p name args) 0 args
      rw [if_neg called, rewriteNode_descended answer, ← arguments]

theorem rewrite_replaceTheme (row : Row) (index : Nat) : (ns : List Node) →
    (rewrite (replaceTheme theme context) row index () ns).nodes = replaceCalls theme context ns
  | [] => by rw [rewrite, replaceCalls]
  | n :: ns => by
    have first := rewriteNode_replaceTheme (row.place index) n
    have later := rewrite_replaceTheme row (index + 1) ns
    rw [rewrite, replaceCalls, ← later]
    exact congrArg (· ++ _) first

end

/-- Where no theme call begins, none is replaced. -/
theorem replaceCalls_absent {ns : List Node} (absent : ¬ "theme(".toList <:+: render ns) :
    replaceCalls theme context ns = ns := by
  induction ns using nodes_induction with
  | nil => rw [replaceCalls]
  | cons n ns inside later =>
    rw [render_cons] at absent
    rw [replaceCalls, later fun calls => absent (calls.trans (List.suffix_append ..).isInfix)]
    cases n with
    | word t => rw [replaceCallsNode]
    | separator t => rw [replaceCallsNode]
    | call name args =>
      rw [renderNode_call] at absent
      have other : name ≠ "theme" := by
        rintro rfl
        exact absent ⟨[], render args ++ ')' :: render ns, by simp⟩
      have arguments : ¬ "theme(".toList <:+: render args := fun calls =>
        absent (calls.trans ⟨name ++ ['('], ')' :: render ns, by simp⟩)
      rw [replaceCallsNode, if_neg other, inside name args rfl arguments]

/-- Migration replaces the theme calls of the value. -/
theorem migrateValue_eq_replaceCalls (t : Text) :
    migrateValue theme context t = render (replaceCalls theme context (parse t)) := by
  rw [migrateValue]
  split
  · rw [walk_eq, rewrite_replaceTheme]
  · rename_i absent
    rw [Text.occurs_iff, ← render_parse t] at absent
    rw [replaceCalls_absent theme context absent, render_parse]

end Migration

end AtomicCss
