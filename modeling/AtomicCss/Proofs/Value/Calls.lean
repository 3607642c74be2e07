import AtomicCss.Proofs.Text.Closing
import AtomicCss.Proofs.Text.Trim
import AtomicCss.Proofs.Value.Tree

/-! Calls in a balanced text. There the parentheses that the tree pairs are the
ones that the reader of brackets pairs, so that the arguments of each call are
a closed text. -/
namespace AtomicCss.Value
open Text

/-- The arguments of each call are closed. -/
def CallsClosed (ns : List Node) : Prop :=
  ∀ name args, Node.call name args ∈ ns → Closed (render args)

/-- Each list of siblings uses up the brackets that were opened since the call
around it was. -/
def Fits : Place → List Node → List (List Node) → Prop
  | (s, closers), here, [] =>
    ')' ∉ closers ∧ ∃ s', track (s, closers) (render here) = some (s', [])
  | (s, closers), here, siblings :: after =>
    ∃ own below, closers = own ++ ')' :: below ∧ ')' ∉ own ∧
      track (s, own) (render here) = some (.plain, []) ∧ Fits (.plain, below) siblings after

/-- A character in front of a list of siblings may be read with it, as long as it
neither opens nor closes a parenthesis. -/
theorem fits_cons {s s' : Scan} {closers closers' : List Char} {c : Char} {here here' : List Node}
    {after : List (List Node)} (step : turn (s, closers) c = some (s', closers'))
    (opening : closers' ≠ ')' :: closers) (closing : closers ≠ ')' :: closers')
    (written : render here' = c :: render here) (fits : Fits (s', closers') here after) :
    Fits (s, closers) here' after := by
  cases after with
  | nil =>
    obtain ⟨free, last, reached⟩ := fits
    refine ⟨?_, last, by rw [written, track_cons, step]; exact reached⟩
    rcases turn_cases step with ⟨rfl, -⟩ | ⟨k, -, -, -, rfl⟩ | ⟨-, -, rfl, -⟩
    · exact free
    · exact fun member => free (by simp [member])
    · have other : c ≠ ')' := fun same => closing (same ▸ rfl)
      simp [free, Ne.symm other]
  | cons siblings after =>
    obtain ⟨own, below, rfl, free, reached, later⟩ := fits
    have own_step : ∃ own', closers = own' ++ ')' :: below ∧ ')' ∉ own' ∧
        turn (s, own') c = some (s', own) := by
      rcases turn_cases step with ⟨same, anywhere⟩ | ⟨k, opens, rfl, rfl, same⟩ |
        ⟨rfl, rfl, rfl, anywhere⟩
      · exact ⟨own, same.symm, free, anywhere own⟩
      · cases own with
        | nil =>
          cases same
          exact absurd rfl opening
        | cons d own =>
          cases same
          exact ⟨own, rfl, fun member => free (by simp [member]), turn_opener opens own⟩
      · have other : c ≠ ')' := fun same => closing (same ▸ rfl)
        exact ⟨c :: own, by simp, by simp [free, Ne.symm other], anywhere own⟩
    obtain ⟨own', same', free', stepped⟩ := own_step
    exact ⟨own', below, same', free', by rw [written, track_cons, stepped]; exact reached, later⟩

theorem fits_append {closers : List Char} {n : Node} {here : List Node} {after : List (List Node)}
    (closed : Closed (renderNode n)) (fits : Fits (.plain, closers) here after) :
    Fits (.plain, closers) (n :: here) after := by
  cases after with
  | nil =>
    obtain ⟨free, last, reached⟩ := fits
    exact ⟨free, last, by rw [render_cons, track_append_of (closed.track_eq _), reached]⟩
  | cons siblings after =>
    obtain ⟨own, below, same, free, reached, later⟩ := fits
    exact ⟨own, below, same, free,
      by rw [render_cons, track_append_of (closed.track_eq _), reached], later⟩

theorem callsClosed_spell {c : Char} {ns : List Node} (calls : CallsClosed ns) :
    CallsClosed (spell c ns) := by
  intro name args member
  fun_cases spell c ns with
  | case1 => exact calls name args (by simpa [spell] using member)
  | case2 name' =>
    rcases (by simpa [spell] using member) with ⟨-, rfl⟩ | inside
    · exact calls name' args (by simp)
    · exact calls name args (by simp [inside])
  | case3 => exact calls name args (by simpa [spell] using member)

theorem callsClosed_space {c : Char} {ns : List Node} (calls : CallsClosed ns) :
    CallsClosed (space c ns) := by
  intro name args member
  fun_cases space c ns with
  | case1 => exact calls name args (by simpa [space] using member)
  | case2 => exact calls name args (by simpa [space] using member)

theorem count_turn {s s' : Scan} {closers closers' : List Char} {c : Char}
    (step : turn (s, closers) c = some (s', closers')) (opening : closers' ≠ ')' :: closers)
    (closing : closers ≠ ')' :: closers') : closers'.count ')' = closers.count ')' := by
  rcases turn_cases step with ⟨rfl, -⟩ | ⟨k, -, -, -, rfl⟩ | ⟨-, -, rfl, -⟩
  · rfl
  · have other : k ≠ ')' := fun same => opening (same ▸ rfl)
    simp [other]
  · have other : c ≠ ')' := fun same => closing (same ▸ rfl)
    simp [other]

theorem closer_round {c : Char} : closer? c = some ')' ↔ c = '(' := by
  simp [closer_eq_some]

/-- A character of a word neither opens nor closes a parenthesis. -/
theorem inward_turn {s s' : Scan} {closers closers' : List Char} {c : Char}
    (step : turn (s, closers) c = some (s', closers')) (inward : Inward (closers.count ')') s c) :
    s' = s.next c ∧ closers' ≠ ')' :: closers ∧ closers ≠ ')' :: closers' := by
  refine ⟨(due_of_turn step).1, ?_, ?_⟩
  · rintro rfl
    rcases turn_cases step with ⟨same, -⟩ | ⟨k, opens, rfl, -, same⟩ | ⟨-, -, same, -⟩
    · exact List.cons_ne_self _ _ same
    · cases same
      obtain rfl := closer_round.mp opens
      exact (inward rfl).1 rfl
    · have length := congrArg List.length same
      simp at length
      omega
  · rintro rfl
    rcases turn_cases step with ⟨same, -⟩ | ⟨k, -, -, -, same⟩ | ⟨rfl, -, same, -⟩
    · exact List.cons_ne_self _ _ same.symm
    · have length := congrArg List.length same
      simp at length
      omega
    · cases same
      exact (inward rfl).2.1 ⟨rfl, by simp⟩

theorem closing_turn {s s' : Scan} {closers closers' : List Char}
    (step : turn (s, closers) ')' = some (s', closers')) (plain : s = .plain) :
    s' = .plain ∧ closers = ')' :: closers' := by
  subst plain
  rcases turn_cases step with ⟨-, anywhere⟩ | ⟨k, opens, -⟩ | ⟨-, settled, due, -⟩
  · have none_due := anywhere []
    simp [turn, close?, closer?, isCloser, Scan.live, Scan.isQuote] at none_due
  · cases opens
  · exact ⟨settled, due⟩

theorem separator_neutral {c : Char} (separates : isSeparator c = true) : Neutral c := by
  simp only [isSeparator, Bool.or_eq_true, beq_iff_eq] at separates
  rcases separates with (rfl | rfl) | blank
  · decide
  · decide
  · exact blank_neutral blank

theorem closed_call {args : List Node} (inside : Closed (render args)) :
    Closed (renderNode (.call [] args)) := by
  rw [renderNode_call, List.nil_append, Closed, track_cons,
    show turn (.plain, []) '(' = some (.plain, [')']) from rfl, Option.bind_some,
    track_append_of (inside.track_eq _)]
  rfl

theorem callsClosed_call {args ns : List Node} (name : Text) (inside : Closed (render args))
    (calls : CallsClosed ns) : CallsClosed (.call name args :: ns) := by
  intro name' args' member
  rcases List.mem_cons.mp member with same | member
  · cases same
    exact inside
  · exact calls name' args' member

/-- Behind a parenthesis that opens, the siblings are the arguments of a call that is closed. -/
theorem fits_opened {closers : List Char} {here : List Node} {after : List (List Node)}
    (fits : Fits (.plain, ')' :: closers) here after) : ∃ siblings later, after = siblings :: later ∧
      Closed (render here) ∧ Fits (.plain, closers) siblings later := by
  cases after with
  | nil => exact absurd (by simp) fits.1
  | cons siblings later =>
    obtain ⟨own, below, same, free, inside, outer⟩ := fits
    cases own with
    | nil =>
      cases same
      exact ⟨siblings, later, rfl, inside, outer⟩
    | cons d own =>
      cases same
      simp at free

/-- In a balanced text every call is closed, and closes the bracket that opened it. -/
theorem fits_nest {s s' : Scan} {closers : List Char} {t : Text}
    (reached : track (s, closers) t = some (s', [])) :
    Fits (s, closers) (nest (lex (closers.count ')') s t)).here
        (nest (lex (closers.count ')') s t)).after ∧
      ∀ ns ∈ (nest (lex (closers.count ')') s t)).here :: (nest (lex (closers.count ')') s t)).after,
        CallsClosed ns := by
  refine nest_lex_induction (motive := fun depth s t g => ∀ closers s',
    track (s, closers) t = some (s', []) → closers.count ')' = depth →
      Fits (s, closers) g.here g.after ∧ ∀ ns ∈ g.here :: g.after, CallsClosed ns)
    ?_ ?_ ?_ ?_ ?_ (closers.count ')') s t closers s' reached rfl
  · intro depth s closers s' reached _
    cases reached
    exact ⟨⟨by simp, s, rfl⟩, by simp [CallsClosed]⟩
  · intro depth s c rest g inward ih closers s' reached count
    rw [track_cons] at reached
    obtain ⟨⟨s₁, closers₁⟩, step, after⟩ := Option.bind_eq_some_iff.mp reached
    obtain ⟨rfl, opening, closing⟩ := inward_turn step (count ▸ inward)
    obtain ⟨fits, calls⟩ := ih closers₁ s' after ((count_turn step opening closing).trans count)
    obtain ⟨first, others⟩ := List.forall_mem_cons.mp calls
    exact ⟨fits_cons step opening closing (render_spell c g.here) fits,
      List.forall_mem_cons.mpr ⟨callsClosed_spell first, others⟩⟩
  · intro depth c rest g live separates ih closers s' reached count
    have step := turn_neutral (p := (.plain, closers)) (by trivial) (separator_neutral separates)
    rw [track_cons, step] at reached
    obtain ⟨fits, calls⟩ := ih closers s' reached count
    obtain ⟨first, others⟩ := List.forall_mem_cons.mp calls
    exact ⟨fits_cons step (List.cons_ne_self _ _).symm (List.cons_ne_self _ _).symm
      (render_space c g.here) fits, List.forall_mem_cons.mpr ⟨callsClosed_space first, others⟩⟩
  · intro depth rest g ih closers s' reached count
    obtain ⟨here, after⟩ := g
    have opened : turn (.plain, closers) '(' = some (.plain, ')' :: closers) := rfl
    rw [track_cons, opened, Option.bind_some] at reached
    obtain ⟨fits, calls⟩ := ih (')' :: closers) s' reached (by simp [count])
    obtain ⟨siblings, later, rfl, inside, outer⟩ := fits_opened fits
    obtain ⟨-, calls⟩ := List.forall_mem_cons.mp calls
    obtain ⟨first, others⟩ := List.forall_mem_cons.mp calls
    exact ⟨fits_append (closed_call inside) outer,
      List.forall_mem_cons.mpr ⟨callsClosed_call [] inside first, others⟩⟩
  · intro depth rest g ih closers s' reached count
    rw [track_cons] at reached
    obtain ⟨⟨s₁, closers₁⟩, step, after⟩ := Option.bind_eq_some_iff.mp reached
    obtain ⟨rfl, rfl⟩ := closing_turn step rfl
    obtain ⟨fits, calls⟩ := ih closers₁ s' after (by simpa using count)
    exact ⟨⟨[], closers₁, rfl, by simp, rfl, fits⟩,
      List.forall_mem_cons.mpr ⟨by simp [CallsClosed, Nesting.close], calls⟩⟩

theorem Fits.count_eq {s : Scan} {closers : List Char} {here : List Node} {after : List (List Node)}
    (fits : Fits (s, closers) here after) : closers.count ')' = after.length := by
  induction after generalizing s closers here with
  | nil => exact List.count_eq_zero.mpr fits.1
  | cons siblings after ih =>
    obtain ⟨own, below, rfl, free, -, later⟩ := fits
    simp [List.count_eq_zero.mpr free, ih later]

theorem callsClosed_parse {t : Text} (holds : balanced t = true) : CallsClosed (parse t) := by
  obtain ⟨s, reached, -⟩ := balanced_iff.mp holds
  exact (fits_nest reached).2 _ List.mem_cons_self

end AtomicCss.Value
