import AtomicCss.Proofs.Text.Replacement
import AtomicCss.Proofs.Value.Parentheses

/-! Where no character is escaped, only parentheses and quotes decide which parentheses are
partners. So a text may lose or gain any other characters and stays complete. -/
namespace AtomicCss.Value
open Text

/-- The characters that parentheses depend on. -/
def isMark (c : Char) : Bool := c == '\\' || Scan.isQuote c || c == '(' || c == ')'

/-- The text without all other characters. -/
def marks (t : Text) : Text := t.filter isMark

@[simp] theorem marks_append (a b : Text) : marks (a ++ b) = marks a ++ marks b := List.filter_append ..

theorem marks_eq_nil {t : Text} (unmarked : ∀ c ∈ t, isMark c = false) : marks t = [] :=
  List.filter_eq_nil_iff.mpr fun c member => by simp [unmarked c member]

theorem unmarked_of_neutral {c : Char} (neutral : Neutral c) : isMark c = false := by
  have other {d : Char} (listed : d ∈ meaningful) : c ≠ d := neutral.ne listed
  simp [isMark, neutral.2.1, other (d := '\\') (by decide), other (d := '(') (by decide),
    other (d := ')') (by decide)]

theorem marks_blank {t : Text} (blank : ∀ c ∈ t, isBlank c = true) : marks t = [] :=
  marks_eq_nil fun c member => unmarked_of_neutral (blank_neutral (blank c member))

theorem marks_trim (t : Text) : marks (trim t) = marks t := by
  obtain ⟨before, behind, whole, blank, blank'⟩ := trim_parts t
  conv => rhs; rw [whole]
  simp [marks_blank blank, marks_blank blank']

theorem marks_ink (t : Text) : marks (ink t) = marks t := by
  rw [marks, ink, List.filter_filter]
  refine List.filter_congr fun c _ => ?_
  cases blank : isBlank c with
  | true => simp [unmarked_of_neutral (blank_neutral blank)]
  | false => simp

theorem marks_replace {c : Char} {u : Text} (unmarked : isMark c = false) (image : marks u = []) (t : Text) :
    marks (replace c u t) = marks t := by
  induction t with
  | nil => rfl
  | cons d t ih =>
    have alone : marks (d :: t) = marks [d] ++ marks t := marks_append [d] t
    by_cases same : d = c
    · have nothing : marks [c] = [] := marks_eq_nil (by simpa using unmarked)
      rw [alone, same, replace_here, marks_append, image, nothing, ih]
    · rw [alone, replace_other c u same, ← ih]
      exact marks_append [d] _

/-- Another character leaves the parentheses, and quotes that are open, as they are. -/
theorem pass_unmarked {s : Scan} (settled : s.Settled) {c : Char} (unmarked : isMark c = false) (n : Nat) :
    pass (n, s) c = some (n, s) := by
  simp only [isMark, Bool.or_eq_false_iff, beq_eq_false_iff_ne] at unmarked
  obtain ⟨⟨⟨backslash, unquoted⟩, opens⟩, closes⟩ := unmarked
  have stays : s.next c = s := by
    obtain rfl | ⟨q, quote, rfl⟩ := Scan.settled_cases settled
    · simp [Scan.next, backslash, unquoted]
    · have other : c ≠ q := by
        rintro rfl
        rw [unquoted] at quote
        cases quote
      simp [Scan.next, backslash, other]
  rw [pass_inward (fun _ => ⟨opens, closes⟩), stays]

theorem settled_pass {p q : Nat × Scan} (settled : p.2.Settled) {c : Char} (unescaped : c ≠ '\\')
    (step : pass p c = some q) : q.2.Settled := by
  unfold pass at step
  split at step
  · split at step
    · cases step
      exact Scan.settled_plain
    · split at step
      · split at step
        · cases step
        · cases step
          exact Scan.settled_plain
      · cases step
        exact Scan.settled_plain
  · cases step
    exact Scan.settled_next settled unescaped

/-- Without escapes only the marks count for parentheses. -/
theorem passes_marks {p : Nat × Scan} (settled : p.2.Settled) {t : Text} (unescaped : '\\' ∉ t) :
    passes p (marks t) = passes p t := by
  induction t generalizing p with
  | nil => rfl
  | cons c t ih =>
    obtain ⟨other, unescaped⟩ := not_or.mp (mt List.mem_cons.mpr unescaped)
    by_cases mark : isMark c = true
    · rw [marks, List.filter_cons_of_pos mark, passes_cons, passes_cons]
      exact Option.bind_congr fun q step => ih (settled_pass settled (Ne.symm other) step) unescaped
    · rw [marks, List.filter_cons_of_neg mark, passes_cons,
        pass_unmarked settled (by simpa using mark), Option.bind_some]
      exact ih settled unescaped

theorem complete_of_marks {t u : Text} (same : marks u = marks t) (unescaped : '\\' ∉ t)
    (complete : Complete t) : Complete u := by
  have escapes (v : Text) : '\\' ∈ marks v ↔ '\\' ∈ v := by simp [marks, List.mem_filter, isMark]
  have unescaped' : '\\' ∉ u := by rwa [← escapes, same, escapes]
  rw [Complete, ← passes_marks Scan.settled_plain unescaped', same, passes_marks Scan.settled_plain unescaped]
  exact complete

end AtomicCss.Value
