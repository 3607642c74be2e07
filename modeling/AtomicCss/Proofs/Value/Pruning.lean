import AtomicCss.Proofs.Value.Compaction

/-! Reading a tree again after separators were deleted from it. Words that a separator
kept apart are read as one, and nothing else is read otherwise: neither the calls, nor
the openings that nothing closes, nor the separators that are left. -/
namespace AtomicCss.Value
open Text

/-- The second siblings are the first ones without some blank separators, at any depth. -/
inductive Pruned : List Node → List Node → Prop
  | nil : Pruned [] []
  | word (t : Text) {ns ms : List Node} (rest : Pruned ns ms) : Pruned (.word t :: ns) (.word t :: ms)
  | separator (t : Text) {ns ms : List Node} (rest : Pruned ns ms) :
    Pruned (.separator t :: ns) (.separator t :: ms)
  | call (name : Text) {args args' ns ms : List Node} (inside : Pruned args args') (rest : Pruned ns ms) :
    Pruned (.call name args :: ns) (.call name args' :: ms)
  | drop {t : Text} {ns ms : List Node} (blank : t.all isBlank = true) (rest : Pruned ns ms) :
    Pruned (.separator t :: ns) ms

/-- A node in front of siblings, either by itself or as one with the first of them. -/
inductive Joined : Node → List Node → List Node → Prop
  | word (t u : Text) (ns : List Node) : Joined (.word t) (.word u :: ns) (.word (t ++ u) :: ns)
  | name (t name : Text) (args ns : List Node) :
    Joined (.word t) (.call name args :: ns) (.call (t ++ name) args :: ns)
  | separator (t u : Text) (ns : List Node) :
    Joined (.separator t) (.separator u :: ns) (.separator (t ++ u) :: ns)
  | apart (n : Node) (ns : List Node) : Joined n ns (n :: ns)

/-- The second siblings are the first ones, where neighbours may be joined, at any depth. -/
inductive Fused : List Node → List Node → Prop
  | nil : Fused [] []
  | word {t : Text} {ns ms fs : List Node} (some_left : t ≠ []) (rest : Fused ns ms)
    (joined : Joined (.word t) ms fs) : Fused (.word t :: ns) fs
  | separator {t : Text} {ns ms fs : List Node} (rest : Fused ns ms)
    (joined : Joined (.separator t) ms fs) : Fused (.separator t :: ns) fs
  | call (name : Text) {args args' ns ms : List Node} (inside : Fused args args') (rest : Fused ns ms) :
    Fused (.call name args :: ns) (.call name args' :: ms)

section

variable {c : Char} {t : Text} {ns ms : List Node}

theorem joined_spell (c : Char) (ns : List Node) : Joined (.word [c]) ns (spell c ns) := by
  fun_cases spell c ns with
  | case1 t ns => exact .word [c] t ns
  | case2 name args ns => exact .name [c] name args ns
  | case3 => exact .apart _ _

theorem joined_space (c : Char) (ns : List Node) : Joined (.separator [c]) ns (space c ns) := by
  fun_cases space c ns with
  | case1 t ns => exact .separator [c] t ns
  | case2 => exact .apart _ _

theorem Joined.spell (joined : Joined (.word t) ns ms) : Joined (.word (c :: t)) ns (spell c ms) := by
  cases joined with
  | word _ u ns => exact .word (c :: t) u ns
  | name _ name args ns => exact .name (c :: t) name args ns
  | apart => exact .apart _ _

theorem Joined.space (joined : Joined (.separator t) ns ms) :
    Joined (.separator (c :: t)) ns (space c ms) := by
  cases joined with
  | separator _ u ns => exact .separator (c :: t) u ns
  | apart => exact .apart _ _

/-- A character of a word stays in front of what is left behind it. -/
theorem Pruned.of_spell (pruned : Pruned (spell c ns) ms) :
    ∃ kept, Pruned ns kept ∧ render ms = c :: render kept ∧
      ∀ fs, Fused kept fs → Fused ms (Value.spell c fs) := by
  revert pruned
  fun_cases spell c ns with
  | case1 t ns =>
    rintro (_ | ⟨_, rest⟩)
    refine ⟨_, .word t rest, by simp, fun fs fused => ?_⟩
    cases fused with
    | word _ fused joined => exact .word (List.cons_ne_nil c t) fused joined.spell
  | case2 name args ns =>
    rintro (_ | _ | _ | ⟨_, inside, rest⟩)
    refine ⟨_, .call name inside rest, by simp, fun fs fused => ?_⟩
    cases fused with
    | call _ fused behind => exact .call (c :: name) fused behind
  | case3 =>
    rintro (_ | ⟨_, rest⟩)
    exact ⟨_, rest, by simp, fun fs fused => .word (by simp) fused (joined_spell c fs)⟩

/-- A character of a separator is deleted with it, or stays in front of what is left behind it. -/
theorem Pruned.of_space (pruned : Pruned (space c ns) ms) :
    Pruned ns ms ∨ ∃ kept, Pruned ns kept ∧ render ms = c :: render kept ∧
      ∀ fs, Fused kept fs → Fused ms (Value.space c fs) := by
  revert pruned
  fun_cases space c ns with
  | case1 t ns =>
    intro pruned
    cases pruned with
    | separator _ rest =>
      refine .inr ⟨_, .separator t rest, by simp, fun fs fused => ?_⟩
      cases fused with
      | separator fused joined => exact .separator fused joined.space
    | drop blank rest =>
      rw [List.all_cons, Bool.and_eq_true] at blank
      exact .inl (.drop blank.2 rest)
  | case2 =>
    intro pruned
    cases pruned with
    | separator _ rest =>
      exact .inr ⟨_, rest, by simp, fun fs fused => .separator fused (joined_space c fs)⟩
    | drop blank rest => exact .inl rest

end

/-- The same relation between the siblings of both, list by list. -/
structure Nesting.Lift (R : List Node → List Node → Prop) (g h : Nesting) : Prop where
  here : R g.here h.here
  after : List.Forall₂ R g.after h.after

/-- What is left after separators were deleted is read with words joined, whatever stands ahead. -/
theorem nest_pruned (depth : Nat) (s : Scan) (t : Text) {kept : Nesting}
    (pruned : (nest (lex depth s t)).Lift Pruned kept) :
    kept.Lift Fused (nest (lex depth s kept.text)) := by
  refine nest_lex_induction (motive := fun depth s _ g => ∀ kept : Nesting, g.Lift Pruned kept →
    kept.Lift Fused (nest (lex depth s kept.text))) ?_ ?_ ?_ ?_ ?_ depth s t kept pruned
  · rintro depth s ⟨here, after⟩ ⟨⟨⟩, ⟨⟩⟩
    exact ⟨.nil, .nil⟩
  · rintro depth s c rest g inward ih ⟨here, after⟩ ⟨pruned, later⟩
    obtain ⟨behind, pruned, written, fused⟩ := pruned.of_spell
    have read := ih ⟨behind, after⟩ ⟨pruned, later⟩
    have text : Nesting.text ⟨here, after⟩ = c :: Nesting.text ⟨behind, after⟩ := by
      simp [Nesting.text, written]
    rw [text, nest_word depth _ inward]
    exact ⟨fused _ read.here, read.after⟩
  · rintro depth c rest g live separates ih ⟨here, after⟩ ⟨pruned, later⟩
    rcases pruned.of_space with pruned | ⟨behind, pruned, written, fused⟩
    · exact ih ⟨here, after⟩ ⟨pruned, later⟩
    · have read := ih ⟨behind, after⟩ ⟨pruned, later⟩
      have text : Nesting.text ⟨here, after⟩ = c :: Nesting.text ⟨behind, after⟩ := by
        simp [Nesting.text, written]
      rw [text, nest_separator depth _ live separates]
      exact ⟨fused _ read.here, read.after⟩
  · rintro depth rest ⟨siblings, _ | ⟨outer, after⟩⟩ ih ⟨here, after'⟩ ⟨pruned, later⟩
    · -- Nothing closes this opening, so nothing joins it with the word behind it.
      cases pruned with
      | @word _ _ behind pruned =>
        cases later
        have read := ih ⟨behind, []⟩ ⟨pruned, .nil⟩
        have text : Nesting.text ⟨.word ['('] :: behind, []⟩ = '(' :: Nesting.text ⟨behind, []⟩ := by
          simp [Nesting.text]
        rw [List.nil_append, text, nest_opening, Nesting.openCall, List.forall₂_nil_left_iff.mp read.after]
        exact ⟨.word (by simp) read.here (.apart _ _), .nil⟩
    · cases pruned with
      | @call _ _ args _ behind inside pruned =>
        have read := ih ⟨args, behind :: after'⟩ ⟨inside, .cons pruned later⟩
        have text : Nesting.text ⟨.call [] args :: behind, after'⟩ =
            '(' :: Nesting.text ⟨args, behind :: after'⟩ := by
          simp [Nesting.text]
        obtain ⟨inner, others, fused, fused', same⟩ := List.forall₂_cons_left_iff.mp read.after
        rw [text, nest_opening, Nesting.openCall, same]
        exact ⟨.call [] read.here fused, fused'⟩
  · rintro depth rest g ih ⟨here, after⟩ ⟨pruned, later⟩
    cases pruned
    obtain ⟨outer, others, pruned, pruned', rfl⟩ := List.forall₂_cons_left_iff.mp later
    have read := ih ⟨outer, others⟩ ⟨pruned, pruned'⟩
    have text : Nesting.text ⟨[], outer :: others⟩ = ')' :: Nesting.text ⟨outer, others⟩ := by
      simp [Nesting.text]
    rw [text, nest_closing]
    exact ⟨.nil, .cons read.here read.after⟩

/-- What is left of a tree is read as it is, with words joined. -/
theorem parse_pruned {t : Text} {kept : List Node} (pruned : Pruned (parse t) kept) :
    Fused kept (parse (render kept)) := by
  have closed := List.eq_nil_of_length_eq_zero (Nat.le_zero.mp (nest_lex_depth 0 .plain t))
  have lifted : (nest (lex 0 .plain t)).Lift Pruned ⟨kept, []⟩ := by
    refine ⟨pruned, ?_⟩
    rw [closed]
    exact .nil
  have read := nest_pruned 0 .plain t lifted
  simpa [Nesting.text, parse] using read.here

end AtomicCss.Value
