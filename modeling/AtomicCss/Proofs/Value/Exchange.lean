import AtomicCss.Proofs.Value.Parentheses

/-! Exchanging the calls of a text. A call with complete arguments is read alone, whatever
stands around it. So where a tree was read and some of its calls are exchanged for other complete
calls, the new tree is what is read when it is written. -/
namespace AtomicCss.Value

/-- The second list of siblings is the first with some calls of one name exchanged, at any depth,
for others that are complete. -/
inductive Exchanged (called : Text) : List Node → List Node → Prop
  | nil : Exchanged called [] []
  | leaf {n : Node} {ns ns' : List Node} (leaf : ∀ name args, n ≠ .call name args)
      (later : Exchanged called ns ns') : Exchanged called (n :: ns) (n :: ns')
  | inside (name : Text) {args args' ns ns' : List Node} (inside : Exchanged called args args')
      (later : Exchanged called ns ns') : Exchanged called (.call name args :: ns) (.call name args' :: ns')
  | other {name arguments : Text} {args ns ns' : List Node} (some_letter : name ≠ [])
      (letters : ∀ c ∈ name, isWordChar c = true) (complete : Complete arguments)
      (later : Exchanged called ns ns') :
      Exchanged called (.call called args :: ns) (.call name (parse arguments) :: ns')

theorem word_ne_call (t name : Text) (args : List Node) : Node.word t ≠ .call name args := by simp

theorem separator_ne_call (t name : Text) (args : List Node) : Node.separator t ≠ .call name args := by simp

/-- The name of a call may begin in this state: nothing is quoted, and an escape takes a letter. -/
def Begins (s : Scan) (name : Text) : Prop := s = .plain ∨ s = .escaped ∧ name ≠ []

/-- A call is read alone wherever its name may begin. -/
theorem nest_begun {name arguments : Text} {s : Scan} (begins : Begins s name)
    (letters : ∀ c ∈ name, isWordChar c = true) (complete : Complete arguments) (depth : Nat)
    (rest : Text) :
    nest (lex depth s (name ++ '(' :: (arguments ++ ')' :: rest))) =
      (nest (lex depth .plain rest)).cons (.call name (parse arguments)) := by
  rcases begins with rfl | ⟨rfl, some_letter⟩
  · exact nest_call letters complete depth rest
  · obtain ⟨c, u, rfl⟩ := List.exists_cons_of_ne_nil some_letter
    have escaped : Inward depth .escaped c := nofun
    have settled : Scan.escaped.next c = .plain := rfl
    rw [List.cons_append, nest_word _ _ escaped, settled,
      nest_call (List.forall_mem_cons.mp letters).2 complete]
    rfl

/-- Where a call with a plain name comes first, its name begins there. -/
theorem begins_of_nest {name : Text} (letters : ∀ c ∈ name, isWordChar c = true) {depth : Nat} {s : Scan}
    (sound : s.Sound) {t : Text} {args rest : List Node}
    (first : (nest (lex depth s t)).here = .call name args :: rest) : Begins s name := by
  induction t generalizing s name with
  | nil => cases first
  | cons c t ih =>
    rcases reading_cases depth s c with inward | ⟨rfl, -⟩ | ⟨rfl, -⟩ | ⟨rfl, -⟩
    · rw [nest_word _ _ inward] at first
      dsimp only at first
      cases behind : (nest (lex depth (s.next c) t)).here with
      | nil => simp [behind, spell] at first
      | cons n ns =>
        cases n with
        | word u => simp [behind, spell] at first
        | separator u => simp [behind, spell] at first
        | call u args' =>
          obtain ⟨⟨rfl, rfl⟩, rfl⟩ : (c :: u = name ∧ args' = args) ∧ ns = rest := by
            simpa [behind, spell] using first
          obtain ⟨letter, letters⟩ := List.forall_mem_cons.mp letters
          have inner := ih letters (Scan.sound_next sound c) behind
          simp only [isWordChar, Bool.and_eq_true, bne_iff_ne, Bool.not_eq_true'] at letter
          obtain ⟨⟨⟨⟨backslash, unquoted⟩, -⟩, -⟩, -⟩ := letter
          cases s with
          | plain => exact .inl rfl
          | escaped => exact .inr ⟨rfl, List.cons_ne_nil c u⟩
          | quoted q =>
            have other : c ≠ q := by
              rintro rfl
              rw [Scan.Sound, unquoted] at sound
              cases sound
            simp [Begins, Scan.next, backslash, other] at inner
          | quotedEscaped q => simp [Begins, Scan.next] at inner
    · exact .inl rfl
    · exact .inl rfl
    · exact .inl rfl

namespace Exchanged

variable {called : Text}

theorem refl (ns : List Node) : Exchanged called ns ns := by
  induction ns using nodes_induction with
  | nil => exact .nil
  | cons n ns inside later =>
    cases n with
    | call name args => exact .inside name (inside name args rfl) later
    | word t => exact .leaf (word_ne_call t) later
    | separator t => exact .leaf (separator_ne_call t) later

/-- A separator in front of the siblings stays in front of what they are exchanged for. -/
theorem of_space {c : Char} {ns ms : List Node} (exchanged : Exchanged called (space c ns) ms) :
    ∃ ns', Exchanged called ns ns' ∧ ms = space c ns' := by
  revert exchanged
  fun_cases space c ns with
  | case1 t ns =>
    rintro (_ | ⟨-, later⟩)
    exact ⟨_, .leaf (separator_ne_call t) later, rfl⟩
  | case2 =>
    rintro (_ | ⟨-, later⟩)
    refine ⟨_, later, ?_⟩
    cases later with
    | @leaf n =>
      rename_i ends
      cases n with
      | separator t => exact absurd rfl (ends t _)
      | _ => rfl
    | _ => rfl

/-- A character of a word stays in front as well, unless it completes the name of a call that is exchanged. -/
theorem of_spell {c : Char} {ns ms : List Node} (exchanged : Exchanged called (spell c ns) ms) :
    (∃ ns', Exchanged called ns ns' ∧ ms = spell c ns') ∨
      ∃ u args rest name arguments rest', called = c :: u ∧ ns = .call u args :: rest ∧
        ms = .call name (parse arguments) :: rest' ∧ name ≠ [] ∧ (∀ d ∈ name, isWordChar d = true) ∧
        Complete arguments ∧ Exchanged called rest rest' := by
  revert exchanged
  fun_cases spell c ns with
  | case1 t ns =>
    rintro (_ | ⟨-, later⟩)
    exact .inl ⟨_, .leaf (word_ne_call t) later, rfl⟩
  | case2 u args ns =>
    intro exchanged
    cases exchanged with
    | leaf leaf => exact absurd rfl (leaf _ _)
    | inside _ inside later => exact .inl ⟨_, .inside u inside later, rfl⟩
    | other some_letter letters complete later =>
      exact .inr ⟨u, args, ns, _, _, _, rfl, rfl, rfl, some_letter, letters, complete, later⟩
  | case3 =>
    rintro (_ | ⟨-, later⟩)
    refine .inl ⟨_, later, ?_⟩
    cases later with
    | nil => rfl
    | @leaf n =>
      rename_i word call
      cases n with
      | word t => exact absurd rfl (word t _)
      | separator t => rfl
      | call name args => exact absurd rfl (call name args _)
    | @inside name args args' =>
      rename_i call
      exact absurd rfl (call name args _)
    | other =>
      rename_i call
      exact absurd rfl (call _ _ _)

end Exchanged

section

variable {called : Text} (letters : ∀ c ∈ called, isWordChar c = true)
include letters

/-- A call that comes first may be exchanged where it is itself read again. -/
theorem nest_other {depth : Nat} {s : Scan} {args rest : List Node} {after : List (List Node)}
    {name arguments : Text} (begins : Begins s called) (complete : Complete (render args))
    (read : nest (lex depth s (Nesting.text ⟨.call called args :: rest, after⟩)) =
      ⟨.call called args :: rest, after⟩) (some_letter : name ≠ [])
    (letters' : ∀ c ∈ name, isWordChar c = true) (complete' : Complete arguments) :
    nest (lex depth s (Nesting.text ⟨.call name (parse arguments) :: rest, after⟩)) =
      ⟨.call name (parse arguments) :: rest, after⟩ := by
  have begins' : Begins s name := begins.imp_right fun escaped => ⟨escaped.1, some_letter⟩
  rw [text_call, nest_begun begins letters complete] at read
  rw [text_call, render_parse, nest_begun begins' letters' complete']
  generalize nest (lex depth .plain (Nesting.text ⟨rest, after⟩)) = g at read ⊢
  obtain ⟨here, later⟩ := g
  obtain ⟨⟨-, rfl⟩, rfl⟩ : (parse (render args) = args ∧ here = rest) ∧ later = after := by
    simpa [Nesting.cons] using read
  rfl

/-- So a call may be exchanged where its name is completed: without its first character the name is not
the one of the calls that are exchanged, so that the call is read with its own arguments first. -/
theorem nest_completed {depth : Nat} {s : Scan} (sound : s.Sound) {c : Char} {u t : Text}
    (completed : called = c :: u) (inward : Inward depth s c) {args rest rest' : List Node}
    {after : List (List Node)} (first : (nest (lex depth (s.next c) t)).here = .call u args :: rest)
    (read : nest (lex depth (s.next c) (Nesting.text ⟨.call u args :: rest', after⟩)) =
      ⟨.call u args :: rest', after⟩) {name arguments : Text} (some_letter : name ≠ [])
    (letters' : ∀ c ∈ name, isWordChar c = true) (complete : Complete arguments) :
    nest (lex depth s (Nesting.text ⟨.call name (parse arguments) :: rest', after⟩)) =
      ⟨.call name (parse arguments) :: rest', after⟩ := by
  subst completed
  have whole : nest (lex depth s (Nesting.text ⟨.call (c :: u) args :: rest', after⟩)) =
      ⟨.call (c :: u) args :: rest', after⟩ := by
    have spelt : spell c (.call u args :: rest') = .call (c :: u) args :: rest' := rfl
    rw [← spelt, text_spell, nest_word _ _ inward, read]
  have begins : Begins s (c :: u) := by
    have leads : (nest (lex depth s (c :: t))).here = .call (c :: u) args :: rest := by
      rw [nest_word _ _ inward]
      exact congrArg (spell c) first
    exact begins_of_nest letters sound leads
  have formed := (paired_nest depth (s.next c) t).here
  rw [first] at formed
  cases formed with
  | leaf leaf => exact absurd rfl (leaf u args)
  | call own => exact nest_other letters begins own whole some_letter letters' complete

omit letters in
/-- The arguments of a call without a name may be exchanged, and what follows the call. -/
theorem nest_opened (some_letter : called ≠ []) {depth : Nat} {g : Nesting}
    (read : ∀ here after, Exchanged called g.here here → List.Forall₂ (Exchanged called) g.after after →
      nest (lex (depth + 1) .plain (Nesting.text ⟨here, after⟩)) = ⟨here, after⟩)
    {here : List Node} {after : List (List Node)} (exchanged : Exchanged called (g.openCall []).here here)
    (exchanged' : List.Forall₂ (Exchanged called) (g.openCall []).after after) :
    nest (lex depth .plain (Nesting.text ⟨here, after⟩)) = ⟨here, after⟩ := by
  obtain ⟨siblings, _ | ⟨outer, later⟩⟩ := g
  · cases exchanged'
    cases exchanged with
    | leaf _ inside =>
      have inner := read _ _ inside .nil
      rw [text_alone] at inner ⊢
      rw [render_cons, renderNode_word, List.nil_append, List.singleton_append, nest_opening, inner]
      rfl
  · cases exchanged with
    | leaf leaf => exact absurd rfl (leaf _ _)
    | other => exact absurd rfl some_letter
    | inside _ inside behind =>
      have inner := read _ _ inside (.cons behind exchanged')
      rw [text_after] at inner
      rw [text_call, List.nil_append, nest_opening, inner]
      rfl

/-- What was read stays readable when calls are exchanged, here and behind each parenthesis that is
still to come. -/
theorem nest_exchanged (some_letter : called ≠ []) {depth : Nat} {s : Scan} (sound : s.Sound) {t : Text}
    {here : List Node} {after : List (List Node)}
    (exchanged : Exchanged called (nest (lex depth s t)).here here)
    (exchanged' : List.Forall₂ (Exchanged called) (nest (lex depth s t)).after after) :
    nest (lex depth s (Nesting.text ⟨here, after⟩)) = ⟨here, after⟩ := by
  induction t generalizing depth s here after with
  | nil =>
    cases exchanged
    cases exchanged'
    rfl
  | cons c t ih =>
    rcases reading_cases depth s c with inward | ⟨rfl, rfl⟩ | ⟨rfl, rfl, outer, rfl⟩ |
      ⟨rfl, live, separates⟩
    · have behind := Scan.sound_next sound c
      rw [nest_word _ _ inward] at exchanged exchanged'
      rcases exchanged.of_spell with ⟨ns', same, rfl⟩ |
        ⟨u, args, rest, name, arguments, rest', completed, first, rfl, other, letters', complete, later⟩
      · rw [text_spell, nest_word _ _ inward, ih behind same exchanged']
      · have kept : Exchanged called (nest (lex depth (s.next c) t)).here (.call u args :: rest') := by
          rw [first]
          exact .inside u (.refl args) later
        exact nest_completed letters sound completed inward first (ih behind kept exchanged') other
          letters' complete
    · rw [nest_opening] at exchanged exchanged'
      exact nest_opened some_letter (fun _ _ => ih sound) exchanged exchanged'
    · rw [nest_closing] at exchanged exchanged'
      cases exchanged
      cases exchanged' with
      | cons here' after' =>
        rw [text_after, render_nil, List.nil_append, nest_closing, ih sound here' after']
        rfl
    · rw [nest_separator _ _ live separates] at exchanged exchanged'
      obtain ⟨ns', same, rfl⟩ := exchanged.of_space
      rw [text_space, nest_separator _ _ live separates, ih sound same exchanged']

/-- A tree in which calls were exchanged is what is read when it is written. -/
theorem parse_exchanged (some_letter : called ≠ []) {t : Text} {ns : List Node}
    (exchanged : Exchanged called (parse t) ns) : parse (render ns) = ns := by
  have closed := List.eq_nil_of_length_eq_zero (Nat.le_zero.mp (nest_lex_depth 0 .plain t))
  have whole : List.Forall₂ (Exchanged called) (nest (lex 0 .plain t)).after [] := by
    rw [closed]
    exact .nil
  have plain : Scan.plain.Sound := trivial
  have read := nest_exchanged letters some_letter plain exchanged whole
  rw [text_alone] at read
  rw [parse, read]

end

end AtomicCss.Value
