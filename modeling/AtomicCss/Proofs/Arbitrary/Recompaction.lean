import AtomicCss.Proofs.Arbitrary.Spacing

/-! Canonical spacing after operators were spaced out. A text that is compact comes
back exactly when each operator that gets spaces gets both of them, stands bare
where it is read, and is not followed by an operator that has a space of its own. -/
namespace AtomicCss.Arbitrary
open Text Value

/-- The spaces that operators get from state `m` on go away again, when the reader
of brackets is in state `s` and a separator came last if `apart`. -/
def Undone (m : MathState) (s : Scan) (apart : Bool) : Text → Prop
  | [] => True
  | c :: rest =>
    (m.emit c rest = [c] ∨ m.emit c rest = [' ', c, ' '] ∧ s = .plain ∧ apart = false ∧
      rest.head?.any isSeparator = false ∧ leadsSpaced rest = false) ∧
    Undone (m.next c rest) (s.next c) (s.live c && isSeparator c) rest

instance decidableUndone : (m : MathState) → (s : Scan) → (apart : Bool) → (t : Text) →
    Decidable (Undone m s apart t)
  | _, _, _, [] => isTrue trivial
  | m, s, _, c :: rest =>
    have := decidableUndone (m.next c rest) (s.next c) (s.live c && isSeparator c) rest
    inferInstanceAs (Decidable (_ ∧ _))

/-- What is known of an operator. -/
structure Operator (c : Char) : Prop where
  other : isSeparator c = false
  visible : isBlank c = false
  next : Scan.plain.next c = .plain
  spaced : Ahead.next [' '] .plain c = .spaced
  alone : ∀ run, run ≠ [' '] → Ahead.next run .plain c = .other
  closing : c ≠ ')'

theorem operator_of_char {c : Char} (operator : isOperatorChar c = true) : Operator c := by
  have opens : c ≠ '(' := by
    rintro rfl
    cases operator
  refine ⟨isSeparator_operator operator, isBlank_operator operator,
    next_neutral (by trivial) (operator_neutral operator), by simp [Ahead.next, opens, operator],
    fun run several => by simp [Ahead.next, opens, several], ?_⟩
  rintro rfl
  cases operator

/-- Behind a blank character no space is put in front. -/
theorem head_spaceFrom_apart {m : MathState} (blank : m.written.head?.any isBlank = true) (t : Text) :
    (spaceFrom m t).head? = t.head? := by
  cases t with
  | nil => rfl
  | cons c rest =>
    rw [spaceFrom]
    by_cases alone : m.emit c rest = [c]
    · rw [alone]
      rfl
    · obtain ⟨n, behind, -, -, emitted⟩ := (MathState.spaced_of_emit alone).emitted
      simp [emitted, blank]

/-- Separators are written as they are. -/
theorem spaceFrom_run {run : Text} (separators : IsRun run) (m : MathState) (apart : Bool) (t : Text) :
    ∃ m' : MathState, m'.written = run.reverse ++ m.written ∧
      spaceFrom m (run ++ t) = run ++ spaceFrom m' t ∧
      (Undone m .plain apart (run ++ t) ↔ Undone m' .plain (apart || !run.isEmpty) t) := by
  induction run generalizing m apart with
  | nil => exact ⟨m, rfl, rfl, by simp⟩
  | cons d run ih =>
    have separates := separators d (by simp)
    have live := live_separator separates
    have emitted (u : Text) : m.emit d u = [d] :=
      MathState.emit_other (isOperator_of_separator separates)
    obtain ⟨m', written, spaced, undone⟩ :=
      ih (fun e member => separators e (by simp [member])) (m.next d (run ++ t)) true
    refine ⟨m', ?_, ?_, ?_⟩
    · rw [written, MathState.written_next, emitted]
      simp
    · rw [List.cons_append, spaceFrom, spaced, emitted]
      rfl
    · rw [List.cons_append, Undone, Scan.next_of_live live, live, separates, Bool.and_self, undone]
      simp [emitted]

/-- What stands in front of a run and what was written agree. -/
structure Agrees (ahead : Ahead) (m : MathState) : Prop where
  edge : ahead = .edge → m.last = none ∨ m.last = some '('
  spaced : ahead = .spaced → ∃ d, m.last = some d ∧ isOperatorChar d = true

theorem Agrees.other (m : MathState) : Agrees .other m := ⟨nofun, nofun⟩

theorem Agrees.next {m : MathState} {c : Char} (run : Text) (s : Scan) (visible : isBlank c = false)
    (rest : Text) : Agrees (.next run s c) (m.next c rest) := by
  have last : (m.next c rest).last = some c := MathState.last_next visible
  unfold Ahead.next
  split
  · rename_i opens
    obtain ⟨-, rfl⟩ : s.live c = true ∧ c = '(' := by simpa using opens
    exact ⟨fun _ => .inr last, nofun⟩
  · split
    · rename_i operator
      rw [Bool.and_eq_true] at operator
      exact ⟨nofun, fun _ => ⟨c, last, operator.1⟩⟩
    · exact .other _

/-- An operand in front of an operator is neither an edge nor an operator. -/
theorem Agrees.eq_other {ahead : Ahead} {m : MathState} (agrees : Agrees ahead m)
    (operand : ∃ d, m.last = some d ∧ d ≠ '(' ∧ isOperatorChar d = false) : ahead = .other := by
  obtain ⟨d, last, opens, operator⟩ := operand
  cases ahead with
  | other => rfl
  | edge =>
    rcases agrees.edge rfl with nothing | paren
    · cases nothing.symm.trans last
    · exact absurd (Option.some.inj (last.symm.trans paren)) opens
  | spaced =>
    obtain ⟨e, same, operator'⟩ := agrees.spaced rfl
    obtain rfl := Option.some.inj (last.symm.trans same)
    rw [operator'] at operator
    cases operator

/-- A run and the character behind it can be told apart. -/
theorem run_cancel {run run' : Text} {c : Char} {t u : Text} (separators : IsRun run)
    (separators' : IsRun run') (other : isSeparator c = false) :
    run ++ c :: t = run' ++ c :: u ↔ run = run' ∧ t = u := by
  constructor
  · intro same
    have front := congrArg (List.takeWhile isSeparator) same
    rw [takeWhile_run separators other, takeWhile_run separators' other] at front
    subst front
    exact ⟨rfl, (List.cons.inj (List.append_cancel_left same)).2⟩
  · rintro ⟨rfl, rfl⟩
    rfl

/-- A single space behind a spaced operator goes away. -/
theorem head_squeeze_spaced {t : Text} (single : t.takeWhile isSeparator = [' ']) :
    (squeeze .spaced [] .plain t).head?.any isSeparator = false := by
  rcases run_cases t with alone | ⟨run, c, rest, rfl, separators, other⟩
  · rw [List.takeWhile_eq_self_iff.mpr alone] at single
    subst single
    rfl
  · rw [takeWhile_run separators other] at single
    subst single
    rw [squeeze_run separators other, if_pos (by simp [isRunDropped])]
    simp [other]

theorem head_of_single {t : Text} (single : t.takeWhile isSeparator = [' ']) :
    t.head?.any isSeparator = true := by
  cases t with
  | nil => cases single
  | cons e t =>
    rw [List.takeWhile_cons] at single
    split at single
    · rename_i separates
      simpa using separates
    · cases single

/-- Any other run is judged alike behind a spaced operator and behind anything else. -/
theorem squeeze_spaced_other {t : Text} (several : t.takeWhile isSeparator ≠ [' ']) :
    squeeze .spaced [] .plain t = squeeze .other [] .plain t := by
  rcases run_cases t with alone | ⟨run, c, rest, rfl, separators, other⟩
  · rw [List.takeWhile_eq_self_iff.mpr alone] at several
    rw [squeeze_last alone, squeeze_last alone]
    simp [isRunDropped, several]
  · rw [takeWhile_run separators other] at several
    rw [squeeze_run separators other, squeeze_run separators other]
    simp [isRunDropped, several]

/-- A run with a comma or a colon stays. -/
theorem head_squeeze_mixed (ahead : Ahead) {n : Char} {t : Text} (separates : isSeparator n = true)
    (visible : isBlank n = false) :
    (squeeze ahead [] .plain (' ' :: n :: t)).head? = some ' ' := by
  have space : isSeparator ' ' = true := rfl
  have mixed : isRunDropped ahead (' ' :: n :: t.takeWhile isSeparator) (t.dropWhile isSeparator) = false := by
    simp [isRunDropped, visible]
  rw [squeeze, if_pos (by simp [live_separator space, space])]
  simp [dropsRun, space, separates, mixed]

/-- What is written alone leads a spaced operator only if it did before. -/
theorem leadsSpaced_spaceFrom {m : MathState} {c : Char} {rest : Text} (alone : m.emit c rest = [c]) :
    leadsSpaced (c :: spaceFrom (m.next c rest) rest) = leadsSpaced (c :: rest) := by
  rw [leadsSpaced_cons, leadsSpaced_cons]
  cases operator : isOperatorChar c with
  | false => rfl
  | true =>
    have last : (m.next c rest).last = some c := MathState.last_next (isBlank_operator operator)
    cases rest with
    | nil => rfl
    | cons d rest =>
      have emitted := emit_behind_operator last operator d rest
      rw [spaceFrom, emitted, List.singleton_append, Bool.true_and, Bool.true_and]
      by_cases space : d = ' '
      · subst space
        have head := head_spaceFrom_apart (m := (m.next c (' ' :: rest)).next ' ' rest)
          (by rw [MathState.written_next, emitted]; rfl) rest
        cases rest with
        | nil => rfl
        | cons e rest =>
          obtain ⟨u, same⟩ := List.head?_eq_some_iff.mp head
          rw [same]
          cases separates : isSeparator e <;>
            simp [show isSeparator ' ' = true from rfl, separates]
      · have different : (d == ' ') = false := by simpa using space
        rw [List.takeWhile_cons, List.takeWhile_cons]
        split <;> simp [different]

/-- The space behind an operator that has none in front is not taken away. -/
theorem squeeze_space_behind {m : MathState} {op n : Char} {behind : Text} (s : Scan)
    (last : m.last = some op) (operator : isOperatorChar op = true) (visible : isBlank n = false)
    (closing : n ≠ ')') :
    squeeze .other [] s (' ' :: spaceFrom m (n :: behind)) ≠ n :: behind := by
  have other := ne_space visible
  have emitted := emit_behind_operator last operator n behind
  rw [spaceFrom, emitted, List.singleton_append]
  intro same
  by_cases plain : s = .plain
  · subst plain
    cases separates : isSeparator n with
    | true =>
      have head := head_squeeze_mixed .other (t := spaceFrom (m.next n behind) behind) separates visible
      rw [same] at head
      exact other (by simpa using head)
    | false =>
      have cut := @squeeze_run .other _ (spaceFrom (m.next n behind) behind) _ isRun_single separates []
      rw [List.singleton_append, same] at cut
      split at cut
      · -- The space went away because of the operator behind it, whose own space goes as well.
        rename_i dropped
        have leads : leadsSpaced (n :: behind) = true := by
          rw [← leadsSpaced_spaceFrom emitted]
          simpa [isRunDropped, atEdge, closing] using dropped
        have leads' := leads
        rw [← leadsSpaced_spaceFrom emitted] at leads'
        rw [leadsSpaced_cons, Bool.and_eq_true, beq_iff_eq] at leads leads'
        have known := operator_of_char leads.1
        have tail := (List.cons.inj cut).2
        rw [List.nil_append, known.spaced, known.next] at tail
        have gone := head_squeeze_spaced leads'.2
        rw [← tail, head_of_single leads.2] at gone
        cases gone
      · exact other (List.cons.inj cut).1
  · rw [squeeze_hidden plain] at same
    exact other (List.cons.inj same).1.symm

/-- The space behind an operator that has one in front goes away, and does no harm
unless an operator with a space of its own comes next. -/
theorem squeeze_between {m : MathState} {op n : Char} {behind : Text} (last : m.last = some op)
    (operator : isOperatorChar op = true) (separates : isSeparator n = false) :
    squeeze .spaced [] .plain (' ' :: spaceFrom m (n :: behind)) = n :: behind ↔
      squeeze .other [] .plain (spaceFrom m (n :: behind)) = n :: behind ∧
        leadsSpaced (n :: behind) = false := by
  have emitted := emit_behind_operator last operator n behind
  have first := @squeeze_run .spaced _ (spaceFrom (m.next n behind) behind) _ isRun_single separates []
  have second := @squeeze_run .other _ (spaceFrom (m.next n behind) behind) _ isRun_nil separates []
  have dropped : isRunDropped .spaced [' '] (n :: spaceFrom (m.next n behind) behind) = true := by
    simp [isRunDropped]
  rw [List.nil_append, if_pos dropped, List.singleton_append] at first
  rw [spaceFrom, emitted, List.singleton_append, first]
  simp only [List.nil_append, ite_self] at second ⊢
  rw [second]
  cases leads : isOperatorChar n with
  | false =>
    have same : Ahead.next [' '] .plain n = Ahead.next [] .plain n := by
      simp [Ahead.next, leads]
    have none_lead : leadsSpaced (n :: behind) = false := by
      rw [leadsSpaced_cons, leads, Bool.false_and]
    rw [same, none_lead]
    simp
  | true =>
    have known := operator_of_char leads
    have kept := leadsSpaced_spaceFrom emitted
    rw [known.next, known.spaced, known.alone [] (by simp)]
    by_cases more : leadsSpaced (n :: behind) = true
    · rw [more] at kept
      rw [leadsSpaced_cons, leads, Bool.true_and, beq_iff_eq] at kept
      have gone := head_squeeze_spaced kept
      refine iff_of_false (fun same => ?_) (by simp [more])
      rw [leadsSpaced_cons, leads, Bool.true_and, beq_iff_eq] at more
      rw [(List.cons.inj same).2, head_of_single more] at gone
      cases gone
    · rw [Bool.not_eq_true] at more
      rw [more] at kept
      rw [leadsSpaced_cons, leads, Bool.true_and, beq_eq_false_iff_ne] at kept
      rw [squeeze_spaced_other kept]
      simp [more]

/-- Whether the space in front of an operator goes away. -/
theorem squeeze_front {c : Char} (operator : isOperatorChar c = true) (t : Text) :
    squeeze .other [] .plain (' ' :: c :: t) =
      (if t.takeWhile isSeparator = [' '] then [] else [' ']) ++ c :: squeeze .spaced [] .plain t := by
  obtain ⟨other, -, next, spaced, -, closing⟩ := operator_of_char operator
  have cut := @squeeze_run .other _ t _ isRun_single other []
  rw [List.nil_append, next, spaced, List.singleton_append] at cut
  rw [cut, isRunDropped, leadsSpaced_cons, operator]
  simp [atEdge, closing]

section

variable {m : MathState} {ahead : Ahead} {c n : Char} {run behind : Text}
  (last : m.last = some c) (operator : isOperatorChar c = true)

include last operator

/-- An operator that gets both spaces. -/
theorem squeeze_both :
    squeeze .other [] .plain (' ' :: c :: ' ' :: spaceFrom m (n :: behind)) = c :: n :: behind ↔
      squeeze .other [] .plain (spaceFrom m (n :: behind)) = n :: behind ∧
        isSeparator n = false ∧ leadsSpaced (n :: behind) = false := by
  have other := isSeparator_operator operator
  obtain ⟨u, head⟩ := List.head?_eq_some_iff.mp (head_spaceFrom last operator (n :: behind))
  have space : isSeparator ' ' = true := rfl
  rw [squeeze_front operator, head]
  cases separates : isSeparator n with
  | true =>
    refine iff_of_false (fun same => ?_) (by simp)
    have kept : (' ' :: n :: u).takeWhile isSeparator ≠ [' '] := by simp [space, separates]
    rw [if_neg kept] at same
    cases (run_cancel isRun_single isRun_nil other).mp same |>.1
  | false =>
    have single : (' ' :: n :: u).takeWhile isSeparator = [' '] := by simp [space, separates]
    have between := @squeeze_between m _ _ behind last operator separates
    rw [head] at between
    rw [if_pos single, List.nil_append, List.cons_inj_right, between]
    simp

omit last in
/-- An operator that only gets a space in front. -/
theorem squeeze_front_only (blank : isBlank n = true) :
    squeeze .other [] .plain (' ' :: c :: spaceFrom m (n :: behind)) ≠ c :: n :: behind := by
  intro same
  rw [squeeze_front operator] at same
  split at same
  · rename_i single
    have gone := head_squeeze_spaced single
    rw [(List.cons.inj same).2] at gone
    simp [isSeparator_blank blank] at gone
  · cases (run_cancel isRun_single isRun_nil (isSeparator_operator operator)).mp same |>.1

/-- An operator that only gets a space behind it, with separators in front. -/
theorem squeeze_behind_only (separators : IsRun run) (visible : isBlank n = false) (closing : n ≠ ')') :
    squeeze ahead [] .plain (run ++ c :: ' ' :: spaceFrom m (n :: behind)) ≠ run ++ c :: n :: behind := by
  obtain ⟨other, -, next, spaced, alone, -⟩ := operator_of_char operator
  rw [squeeze_run separators other, List.nil_append, next]
  intro same
  obtain ⟨kept, rest⟩ := (run_cancel (by split <;> simp [isRun_nil, separators]) separators other).mp same
  by_cases single : run = [' ']
  · subst single
    rw [spaced] at rest
    have undropped : isRunDropped ahead [' '] (c :: ' ' :: spaceFrom m (n :: behind)) = false := by
      by_contra dropped
      rw [Bool.not_eq_false] at dropped
      rw [if_pos dropped] at kept
      cases kept
    obtain ⟨u, head⟩ := List.head?_eq_some_iff.mp (head_spaceFrom last operator (n :: behind))
    have separates : isSeparator n = true := by
      by_contra unseparated
      rw [head, isRunDropped, leadsSpaced_cons, operator] at undropped
      simp [unseparated, show isSeparator ' ' = true from rfl] at undropped
    have first := head_squeeze_mixed .spaced (t := u) separates visible
    rw [← head, rest, List.head?_cons, Option.some.injEq] at first
    rw [first] at visible
    cases visible
  · rw [alone run single] at rest
    exact squeeze_space_behind .plain last operator visible closing rest

end

/-- A space behind a comma or a colon stays. -/
theorem squeeze_mixed_front {ahead : Ahead} {c d : Char} {front t u : Text}
    (separators : IsRun (front ++ [d])) (visible : isBlank d = false)
    (operator : isOperatorChar c = true) :
    squeeze ahead [] .plain (front ++ [d] ++ ' ' :: c :: t) ≠ front ++ [d] ++ c :: u := by
  have longer : IsRun (front ++ [d] ++ [' ']) := by
    intro e member
    rcases List.mem_append.mp member with inside | inside
    · exact separators e inside
    · rw [List.mem_singleton.mp inside]
      rfl
  have other := isSeparator_operator operator
  have several : front ++ [d, ' '] ≠ [' '] := fun single => by
    have length := congrArg List.length single
    simp at length
  have kept : isRunDropped ahead (front ++ [d] ++ [' ']) (c :: t) = false := by
    simp [isRunDropped, visible, several]
  intro same
  rw [show front ++ [d] ++ ' ' :: c :: t = front ++ [d] ++ [' '] ++ c :: t by simp,
    squeeze_run longer other, List.nil_append, kept, if_neg (by simp)] at same
  have length := congrArg List.length ((run_cancel longer separators other).mp same).1
  simp at length

/-- An operator that gets spaces in a compact text, behind a run of separators or
behind none. -/
theorem squeeze_operator_iff {m m' : MathState} {ahead : Ahead} {c : Char} {run rest : Text}
    (separators : IsRun run) (written : m'.written = run.reverse ++ m.written)
    (agrees : Agrees ahead m) (more : m'.emit c rest ≠ [c])
    (later : squeeze (.next run .plain c) [] .plain (spaceFrom (m'.next c rest) rest) = rest ↔
      Undone (m'.next c rest) .plain false rest) :
    squeeze ahead [] .plain (run ++ (m'.emit c rest ++ spaceFrom (m'.next c rest) rest)) =
        run ++ c :: rest ↔ Undone m' .plain (!run.isEmpty) (c :: rest) := by
  obtain ⟨-, operator, operand, n, behind, rfl, closing, emitted⟩ := MathState.spaced_of_emit more
  have known := operator_of_char operator
  have last : (m'.next c (n :: behind)).last = some c := MathState.last_next known.visible
  rw [Undone, known.next, known.other, Bool.and_false]
  rcases List.eq_nil_or_concat run with rfl | ⟨front, d, rfl⟩
  · obtain rfl : ahead = .other := agrees.eq_other (by
      rw [MathState.last, ← show m'.written = m.written from written]
      exact operand)
    rw [known.alone [] (by simp)] at later
    rw [List.nil_append, List.nil_append]
    cases before : m'.written.head?.any isBlank <;> cases blank : isBlank n
    · simp only [before, blank, Bool.false_eq_true, if_false, List.cons_append, List.nil_append]
        at emitted
      have both := @squeeze_both _ _ n behind last operator
      rw [emitted, List.cons_append, List.cons_append, List.cons_append, List.nil_append, both, later]
      simp [and_comm]
    · simp only [before, blank, Bool.false_eq_true, if_false, if_true, List.cons_append, List.nil_append]
        at emitted
      refine iff_of_false ?_ (by simp [emitted])
      simpa [emitted] using squeeze_front_only operator blank
    · simp only [before, blank, Bool.false_eq_true, if_false, if_true, List.nil_append] at emitted
      refine iff_of_false ?_ (by simp [emitted])
      simpa [emitted] using @squeeze_behind_only _ .other _ _ [] _ last operator isRun_nil blank closing
    · exact absurd (by simpa [before, blank] using emitted) more
  · rw [List.concat_eq_append] at separators written ⊢
    refine iff_of_false ?_ (by simp [more])
    have head : m'.written.head?.any isBlank = isBlank d := by simp [written]
    cases blank : isBlank d
    · simp only [head, blank, Bool.false_eq_true, if_false] at emitted
      rw [emitted]
      exact squeeze_mixed_front separators blank operator
    · have visible : isBlank n = false := by
        by_contra shown
        exact more (by simpa [head, blank, shown] using emitted)
      simp only [head, blank, visible, Bool.false_eq_true, if_false, if_true, List.nil_append] at emitted
      rw [emitted]
      exact squeeze_behind_only last operator separators visible closing

/-- Within quotes and escapes the spaces of an operator stay. -/
theorem squeeze_hidden_operator {m : MathState} {ahead : Ahead} {s : Scan} {c : Char} {rest : Text}
    (hidden : s ≠ .plain) (more : m.emit c rest ≠ [c]) :
    squeeze ahead [] s (m.emit c rest ++ spaceFrom (m.next c rest) rest) ≠ c :: rest := by
  obtain ⟨-, operator, -, n, behind, rfl, closing, emitted⟩ := MathState.spaced_of_emit more
  have last : (m.next c (n :: behind)).last = some c :=
    MathState.last_next (isBlank_operator operator)
  intro same
  have apart : m.written.head?.any isBlank = true := by
    by_contra unblank
    rw [emitted, if_neg unblank, List.cons_append, List.cons_append, squeeze_hidden hidden] at same
    rw [← (List.cons.inj same).1] at operator
    cases operator
  have visible : isBlank n = false := by
    by_contra blank
    exact more (by simpa [apart, blank] using emitted)
  rw [emitted, visible] at same
  simp only [apart, if_true, if_false, Bool.false_eq_true, List.nil_append, List.cons_append]
    at same
  rw [squeeze_hidden hidden] at same
  exact squeeze_space_behind _ last operator visible closing (List.cons.inj same).2

/-- A compact text that is spaced out becomes compact again exactly if its spaces
are undone. -/
theorem squeeze_spaceFrom_iff {m : MathState} {ahead : Ahead} (agrees : Agrees ahead m) (s : Scan)
    (t : Text) (compact : squeeze ahead [] s t = t) :
    squeeze ahead [] s (spaceFrom m t) = t ↔ Undone m s false t := by
  induction s, t using runs_induction generalizing ahead m with
  | nil s => exact ⟨fun _ => trivial, fun _ => rfl⟩
  | hidden s c rest hidden ih =>
    rw [squeeze_hidden hidden] at compact
    rw [spaceFrom, Undone, live_hidden hidden, Bool.false_and, ← ih (.other _) (List.cons.inj compact).2]
    by_cases alone : m.emit c rest = [c]
    · rw [alone, List.singleton_append, squeeze_hidden hidden]
      simp
    · exact iff_of_false (squeeze_hidden_operator hidden alone) (by simp [alone, hidden])
  | last run separators =>
    obtain ⟨m', -, spaced, undone⟩ := spaceFrom_run separators m false []
    rw [List.append_nil] at spaced undone
    rw [spaced, undone]
    simpa [spaceFrom, Undone] using compact
  | run run c rest separators other ih =>
    obtain ⟨m', written, spaced, undone⟩ := spaceFrom_run separators m false (c :: rest)
    rw [squeeze_run separators other, List.nil_append] at compact
    rw [spaced, undone, Bool.false_or, spaceFrom]
    obtain ⟨kept, inner⟩ : (if isRunDropped ahead run (c :: rest) then [] else run) = run ∧
        squeeze (.next run .plain c) [] (Scan.plain.next c) rest = rest := by
      refine (run_cancel ?_ separators other).mp compact
      split
      · exact isRun_nil
      · exact separators
    have later := ih (.next run .plain (isBlank_other other) rest) inner (m := m'.next c rest)
    by_cases alone : m'.emit c rest = [c]
    · have same : isRunDropped ahead run (c :: spaceFrom (m'.next c rest) rest) =
          isRunDropped ahead run (c :: rest) := by
        unfold isRunDropped
        rw [leadsSpaced_spaceFrom alone]
        rfl
      rw [alone, List.singleton_append, squeeze_run separators other, List.nil_append, same, kept,
        run_cancel separators separators other, later, Undone, other, Bool.and_false]
      simp [alone]
    · have operator := (MathState.spaced_of_emit alone).operator
      rw [next_neutral (by trivial) (operator_neutral operator)] at later
      exact squeeze_operator_iff separators written agrees alone later

end AtomicCss.Arbitrary
