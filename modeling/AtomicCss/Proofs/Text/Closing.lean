import AtomicCss.Proofs.Text.Segments

/-! The square bracket that the last character closes. In a text that leaves
brackets open, the innermost open one has a place, and what stands before it and
after it is closed in itself; this makes the splitter exact: it finds a bracketed
end if and only if the text is closed text followed by closed text in brackets. -/
namespace AtomicCss.Text

/-- What one character does: it means nothing for brackets, or it opens one, or
it closes the innermost one. -/
theorem turn_cases {s s' : Scan} {closers closers' : List Char} {c : Char}
    (step : turn (s, closers) c = some (s', closers')) :
    (closers' = closers ∧ ∀ others, turn (s, others) c = some (s', others)) ∨
      (∃ k, closer? c = some k ∧ s = .plain ∧ s' = .plain ∧ closers' = k :: closers) ∨
      (s = .plain ∧ s' = .plain ∧ closers = c :: closers' ∧
        ∀ others, turn (.plain, c :: others) c = some (.plain, others)) := by
  unfold turn at step ⊢
  by_cases live : s.live c
  · have plain := Scan.plain_of_live live
    have settled := Scan.next_of_live live
    subst plain
    simp only [live, if_true, Option.map_eq_some_iff, Prod.mk.injEq, settled] at step ⊢
    obtain ⟨_, closed, rfl, rfl⟩ := step
    unfold close? at closed ⊢
    cases opened : closer? c with
    | some k =>
      simp only [opened, Option.some.injEq] at closed
      exact .inr (.inl ⟨k, by simp [closed]⟩)
    | none =>
      by_cases closing : isCloser c
      · cases closers with
        | nil => simp [opened, closing] at closed
        | cons k closers => by_cases same : k = c <;> simp_all
      · simp_all
  · simp_all

theorem turn_opener {c k : Char} (opens : closer? c = some k) (closers : List Char) :
    turn (.plain, closers) c = some (.plain, k :: closers) := by
  rcases closer_eq_some.mp opens with ⟨rfl, rfl⟩ | ⟨rfl, rfl⟩ | ⟨rfl, rfl⟩ <;> rfl

/-- The innermost open bracket and the closed text behind it. -/
theorem open_bracket {u : Text} {s : Scan} {k : Char} {below : List Char}
    (reached : track (.plain, []) u = some (s, k :: below)) :
    ∃ a o b, u = a ++ o :: b ∧ closer? o = some k ∧
      track (.plain, []) a = some (.plain, below) ∧ track (.plain, []) b = some (s, []) := by
  induction length : u.length using Nat.strongRecOn generalizing u s k below with
  | ind n ih =>
    subst length
    rcases List.eq_nil_or_concat u with rfl | ⟨u, c, rfl⟩
    · simp at reached
    rw [List.concat_eq_append, track_append] at reached
    obtain ⟨⟨s₁, closers₁⟩, before, last⟩ := Option.bind_eq_some_iff.mp reached
    rw [track_cons, Option.bind_eq_some_iff] at last
    obtain ⟨q, step, same⟩ := last
    cases same
    rcases turn_cases step with ⟨rfl, anywhere⟩ | ⟨k', opens, rfl, rfl, same⟩ |
      ⟨rfl, rfl, rfl, anywhere⟩
    · obtain ⟨a, o, b, rfl, opener, outer, inner⟩ := ih _ (by simp) before rfl
      refine ⟨a, o, b ++ [c], by simp, opener, outer, ?_⟩
      rw [track_append_of inner, track_cons, anywhere, Option.bind_some, track_nil]
    · cases same
      exact ⟨u, c, [], by simp, opens, before, rfl⟩
    · -- The last character closes a bracket of its own, so the open one stands before that.
      obtain ⟨a', o', b', rfl, opener', outer', inner'⟩ := ih _ (by simp) before rfl
      obtain ⟨a, o, b, rfl, opener, outer, inner⟩ := ih _ (by simp) outer' rfl
      refine ⟨a, o, b ++ o' :: (b' ++ [c]), by simp, opener, outer, ?_⟩
      have inside : track (.plain, [c]) b' = some (.plain, [c]) := track_below inner' [c]
      have closing : track (.plain, [c]) (b' ++ [c]) = some (.plain, []) := by
        rw [track_append_of inside, track_cons, anywhere, Option.bind_some, track_nil]
      rw [track_append_of inner, track_cons, turn_opener opener', Option.bind_some, closing]

theorem closedByLast_live {n : Nat} {s : Scan} {opens : List Nat} {t : Text} {i : Nat}
    (found : closedByLast n s opens t = some i) :
    ∃ u, t = u ++ [']'] ∧ Scan.after s u = .plain := by
  induction t generalizing n s opens with
  | nil => simp [closedByLast] at found
  | cons c rest ih =>
    unfold closedByLast at found
    split at found
    · obtain ⟨u, rfl, plain⟩ := ih found
      exact ⟨c :: u, rfl, plain⟩
    · split at found
      · rename_i closing
        simp only [Bool.and_eq_true, beq_iff_eq] at closing
        obtain ⟨live, rfl⟩ := closing
        cases opens with
        | nil => simp at found
        | cons j opens =>
          cases rest with
          | nil => exact ⟨[], rfl, Scan.plain_of_live live⟩
          | cons d rest =>
            obtain ⟨u, same, plain⟩ := ih (by simpa using found)
            exact ⟨']' :: u, by rw [same]; rfl, plain⟩
      · obtain ⟨u, rfl, plain⟩ := ih found
        exact ⟨c :: u, rfl, plain⟩

theorem track_scan {s s' : Scan} {closers closers' : List Char} {t : Text}
    (reached : track (s, closers) t = some (s', closers')) : Scan.after s t = s' := by
  induction t generalizing s closers with
  | nil =>
    cases reached
    rfl
  | cons c rest ih =>
    rw [track_cons] at reached
    obtain ⟨⟨s₁, closers₁⟩, step, after⟩ := Option.bind_eq_some_iff.mp reached
    obtain ⟨rfl, -⟩ := due_of_turn step
    exact ih after

private theorem closer_square {c : Char} : closer? c = some ']' ↔ c = '[' := by
  simp [closer_eq_some]

/-- The places on the stack are those of the square brackets that are due. -/
private theorem closedByLast_turn {n : Nat} {s s' : Scan} {closers closers' : List Char}
    {opens : List Nat} {c : Char} (step : turn (s, closers) c = some (s', closers'))
    (places : opens.length = closers.count ']') :
    ∃ opens', opens'.length = closers'.count ']' ∧ ∀ base rest, rest ≠ [] →
      closedByLast n s (opens ++ base) (c :: rest) =
        closedByLast (n + 1) s' (opens' ++ base) rest := by
  obtain ⟨same, -⟩ := due_of_turn step
  rcases turn_cases step with ⟨rfl, anywhere⟩ | ⟨k, opens', rfl, rfl, rfl⟩ | ⟨rfl, rfl, rfl, -⟩
  · refine ⟨opens, places, fun base rest some_rest => ?_⟩
    have dead (bracket : c = '[' ∨ c = ']') : s.live c = false := by
      have inert := anywhere []
      cases live : s.live c with
      | false => rfl
      | true => rcases bracket with rfl | rfl <;> simp [turn, live, close?, closer?, isCloser] at inert
    by_cases bracket : c = '[' ∨ c = ']'
    · simp [closedByLast, dead bracket, same]
    · simp [closedByLast, not_or.mp bracket, same]
  · by_cases square : c = '['
    · subst square
      cases opens'
      exact ⟨n :: opens, by simp [places], fun base rest some_rest => rfl⟩
    · have other : k ≠ ']' := fun same => square (closer_square.mp (same ▸ opens'))
      have opening : c ≠ ']' := by
        rintro rfl
        cases opens'
      refine ⟨opens, by simp [places, other], fun base rest some_rest => ?_⟩
      simp [closedByLast, square, opening, ← same]
  · by_cases square : c = ']'
    · subst square
      cases opens with
      | nil => simp at places
      | cons i opens =>
        refine ⟨opens, by simpa using places, fun base rest some_rest => ?_⟩
        simp [closedByLast, some_rest, Scan.live, Scan.isQuote, ← same]
    · have opening : c ≠ '[' := by
        rintro rfl
        simp [turn, close?, closer?, Scan.live, Scan.isQuote] at step
        have length := congrArg List.length step.2
        simp at length
        omega
      refine ⟨opens, by simpa [square] using places, fun base rest some_rest => ?_⟩
      simp [closedByLast, square, opening, ← same]

/-- Brackets that are opened and closed again leave no place behind. -/
private theorem closedByLast_track {n : Nat} {s s' : Scan} {closers closers' : List Char}
    {opens : List Nat} {a : Text} (reached : track (s, closers) a = some (s', closers'))
    (places : opens.length = closers.count ']') :
    ∃ opens', opens'.length = closers'.count ']' ∧ ∀ base rest, rest ≠ [] →
      closedByLast n s (opens ++ base) (a ++ rest) =
        closedByLast (n + a.length) s' (opens' ++ base) rest := by
  induction a generalizing n s closers opens with
  | nil =>
    cases reached
    exact ⟨opens, places, fun _ _ _ => rfl⟩
  | cons c a ih =>
    rw [track_cons] at reached
    obtain ⟨⟨s₁, closers₁⟩, step, after⟩ := Option.bind_eq_some_iff.mp reached
    obtain ⟨opens₁, places₁, first⟩ := closedByLast_turn (n := n) step places
    obtain ⟨opens', places', rest_same⟩ := ih (n := n + 1) after places₁
    refine ⟨opens', places', fun base rest some_rest => ?_⟩
    rw [List.cons_append, first base _ (by simp [some_rest]), rest_same base rest some_rest,
      List.length_cons, Nat.add_right_comm, Nat.add_assoc]

theorem splitClosing_bracketed {a b : Text} (before : Closed a) (inside : Closed b) :
    splitClosing? (a ++ '[' :: (b ++ [']'])) = some (a, b) := by
  have no_places : ([] : List Nat).length = ([] : List Char).count ']' := rfl
  obtain ⟨none_open, zero, first⟩ := closedByLast_track (n := 0) before no_places
  obtain ⟨none_open', zero', second⟩ := closedByLast_track (n := a.length + 1) inside no_places
  obtain rfl : none_open = [] := List.eq_nil_of_length_eq_zero zero
  obtain rfl : none_open' = [] := List.eq_nil_of_length_eq_zero zero'
  have opening := first [] ('[' :: (b ++ [']'])) (by simp)
  have closing := second [a.length] [']'] (by simp)
  have found : closedByLast 0 .plain [] (a ++ '[' :: (b ++ [']'])) = some a.length := by
    simp only [List.nil_append] at opening closing
    rw [opening, Nat.zero_add, closedByLast, if_pos (by rfl),
      show Scan.plain.next '[' = .plain from rfl, closing]
    rfl
  simp [splitClosing?, found]

/-- A balanced text whose last character is a square bracket in play is closed text in front of
closed text in brackets. -/
theorem bracketed_end {u : Text} (holds : balanced (u ++ [']']) = true)
    (live : Scan.plain.after u = .plain) : ∃ a b, u = a ++ '[' :: b ∧ Closed a ∧ Closed b := by
  obtain ⟨s, reached, -⟩ := balanced_iff.mp holds
  rw [track_append] at reached
  obtain ⟨⟨s₁, closers⟩, before, last⟩ := Option.bind_eq_some_iff.mp reached
  obtain rfl : s₁ = .plain := (track_scan before).symm.trans live
  obtain rfl : closers = [']'] := by
    rw [track_cons, Option.bind_eq_some_iff] at last
    obtain ⟨q, step, same⟩ := last
    cases same
    rcases turn_cases step with ⟨rfl, anywhere⟩ | ⟨k, opener, -⟩ | ⟨-, -, same, -⟩
    · simp [turn, close?, closer?, isCloser, Scan.live, Scan.isQuote] at step
    · cases opener
    · exact same
  obtain ⟨a, o, b, rfl, opener, outer, inner⟩ := open_bracket before
  obtain rfl := closer_square.mp opener
  exact ⟨a, b, rfl, outer, inner⟩

/-- The splitter finds exactly the bracketed end of a balanced text. -/
theorem closed_of_splitClosing {t a b : Text} (holds : balanced t = true)
    (found : splitClosing? t = some (a, b)) :
    t = a ++ '[' :: (b ++ [']']) ∧ Closed a ∧ Closed b := by
  obtain ⟨i, place, -⟩ := Option.map_eq_some_iff.mp found
  obtain ⟨u, rfl, live⟩ := closedByLast_live place
  obtain ⟨a', b', rfl, outer, inner⟩ := bracketed_end holds live
  rw [List.append_assoc, List.cons_append, splitClosing_bracketed outer inner] at found
  cases found
  exact ⟨by simp, outer, inner⟩

end AtomicCss.Text
