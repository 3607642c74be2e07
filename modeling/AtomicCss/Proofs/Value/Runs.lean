import AtomicCss.Proofs.Value.Squeeze

/-! A run of separators stays or goes as a whole. So a text is taken apart into the
runs and the characters behind them. -/
namespace AtomicCss.Value
open Text

/-- A run of separators. -/
def IsRun (run : Text) : Prop := ∀ c ∈ run, isSeparator c = true

theorem isRun_nil : IsRun [] := by simp [IsRun]

theorem isRun_single : IsRun [' '] := by simp [IsRun, isSeparator, isBlank]

section

variable {ahead : Ahead} {run rest : Text} {c : Char}

theorem takeWhile_run (separators : IsRun run) (other : isSeparator c = false) :
    (run ++ c :: rest).takeWhile isSeparator = run := by
  rw [List.takeWhile_append_of_pos separators, List.takeWhile_cons_of_neg (by simp [other]),
    List.append_nil]

/-- A run is judged at its first character. -/
theorem squeeze_run (separators : IsRun run) (other : isSeparator c = false) (front : Text) :
    squeeze ahead front .plain (run ++ c :: rest) =
      (if isRunDropped ahead (front ++ run) (c :: rest) then [] else run) ++
        c :: squeeze (.next (front ++ run) .plain c) [] (Scan.plain.next c) rest := by
  induction run generalizing front with
  | nil =>
    rw [List.nil_append, squeeze, if_neg (by simp [other]), List.append_nil]
    simp
  | cons d run ih =>
    have separates := separators d (by simp)
    have live := live_separator separates
    have behind : (run ++ c :: rest).dropWhile isSeparator = c :: rest := by
      rw [List.dropWhile_append_of_pos fun e member => separators e (by simp [member]),
        List.dropWhile_cons_of_neg (by simp [other])]
    have tail : IsRun run := fun e member => separators e (by simp [member])
    rw [List.cons_append, squeeze, if_pos (by simp [live, separates]), Scan.next_of_live live,
      ih tail (front ++ [d]), dropsRun_cons separates, dropsRun, takeWhile_run tail other, behind]
    simp only [List.append_assoc, List.singleton_append]
    split <;> simp

theorem squeeze_last (separators : IsRun run) (front : Text) :
    squeeze ahead front .plain run = if isRunDropped ahead (front ++ run) [] then [] else run := by
  induction run generalizing front with
  | nil => simp [squeeze]
  | cons d run ih =>
    have separates := separators d (by simp)
    have live := live_separator separates
    have tail : IsRun run := fun e member => separators e (by simp [member])
    have whole : run.takeWhile isSeparator = run := List.takeWhile_eq_self_iff.mpr tail
    have nothing : run.dropWhile isSeparator = [] := List.dropWhile_eq_nil_iff.mpr tail
    rw [squeeze, if_pos (by simp [live, separates]), Scan.next_of_live live, ih tail (front ++ [d]),
      dropsRun_cons separates, dropsRun, whole, nothing]
    simp only [List.append_assoc, List.singleton_append]
    split <;> simp

theorem live_hidden {s : Scan} (hidden : s ≠ .plain) : s.live c = false := by
  cases alive : s.live c with
  | false => rfl
  | true => exact absurd (Scan.plain_of_live alive) hidden

/-- Within quotes and escapes nothing goes away. -/
theorem squeeze_hidden {s : Scan} (hidden : s ≠ .plain) :
    squeeze ahead [] s (c :: rest) = c :: squeeze .other [] (s.next c) rest := by
  have next : Ahead.next [] s c = .other := by simp [Ahead.next, live_hidden hidden]
  rw [squeeze, if_neg (by simp [live_hidden hidden]), next]

end

/-- A text is a run, or has something else behind its first run. -/
theorem run_cases (t : Text) :
    IsRun t ∨ ∃ run c rest, t = run ++ c :: rest ∧ IsRun run ∧ isSeparator c = false := by
  have whole := List.takeWhile_append_dropWhile (p := isSeparator) (l := t)
  have separators : IsRun (t.takeWhile isSeparator) := fun c member => List.mem_takeWhile_imp member
  cases behind : t.dropWhile isSeparator with
  | nil =>
    rw [behind, List.append_nil] at whole
    exact .inl (whole ▸ separators)
  | cons c rest =>
    have other := List.head?_dropWhile_not isSeparator t
    rw [behind] at whole other
    exact .inr ⟨_, c, rest, whole.symm, separators, by simpa using other⟩

/-- A text is read run by run where no quote or escape is open. -/
theorem runs_induction {motive : Scan → Text → Prop} (nil : ∀ s, motive s [])
    (hidden : ∀ s c rest, s ≠ .plain → motive (s.next c) rest → motive s (c :: rest))
    (last : ∀ run, IsRun run → motive .plain run)
    (run : ∀ run c rest, IsRun run → isSeparator c = false → motive (Scan.plain.next c) rest →
      motive .plain (run ++ c :: rest)) (s : Scan) (t : Text) : motive s t := by
  by_cases plain : s = .plain
  · subst plain
    rcases run_cases t with alone | ⟨front, c, rest, rfl, separators, other⟩
    · exact last t alone
    · exact run front c rest separators other
        (runs_induction nil hidden last run (Scan.plain.next c) rest)
  · cases t with
    | nil => exact nil s
    | cons c rest => exact hidden s c rest plain (runs_induction nil hidden last run (s.next c) rest)
termination_by t.length

end AtomicCss.Value
