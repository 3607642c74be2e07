import AtomicCss.Proofs.Value.Deletion

/-! Reading what was written. A tree whose words, names and separators hold only their own
characters is read as it was exactly if no word or separator is empty and none runs into the
node behind it: a word would go on in a word or in the name of a call, and a separator in a
separator. What stands behind the tree is left out of it as long as it begins with a closing
parenthesis, so that the arguments of a call are read like any other siblings. -/
namespace AtomicCss.Value
open Text

/-- Words and names hold characters of words only, and separators hold separators only. -/
inductive Lettered : List Node → Prop
  | nil : Lettered []
  | word {t : Text} {ns : List Node} (letters : ∀ c ∈ t, isWordChar c = true) (later : Lettered ns) :
    Lettered (.word t :: ns)
  | separator {t : Text} {ns : List Node} (separators : ∀ c ∈ t, isSeparator c = true) (later : Lettered ns) :
    Lettered (.separator t :: ns)
  | call {name : Text} {args ns : List Node} (letters : ∀ c ∈ name, isWordChar c = true)
    (inside : Lettered args) (later : Lettered ns) : Lettered (.call name args :: ns)

/-- No word and no separator is empty or runs into the node behind it, at any depth. -/
inductive Apart : List Node → Prop
  | nil : Apart []
  | word {t : Text} {ns : List Node} (some_left : t ≠ []) (ends : headWord ns = false)
    (later : Apart ns) : Apart (.word t :: ns)
  | separator {t : Text} {ns : List Node} (some_left : t ≠ []) (ends : headSeparator ns = false)
    (later : Apart ns) : Apart (.separator t :: ns)
  | call (name : Text) {args ns : List Node} (inside : Apart args) (later : Apart ns) :
    Apart (.call name args :: ns)

theorem nest_separators {u : Text} (depth : Nat) (rest : Text)
    (separators : ∀ c ∈ u, isSeparator c = true) :
    nest (lex depth .plain (u ++ rest)) =
      { nest (lex depth .plain rest) with here := u.foldr space (nest (lex depth .plain rest)).here } := by
  induction u with
  | nil => rfl
  | cons c u ih =>
    obtain ⟨first, others⟩ := List.forall_mem_cons.mp separators
    rw [List.cons_append, nest_separator depth _ (live_separator first) first, ih others]
    rfl

theorem space_fresh {ns : List Node} (ends : headSeparator ns = false) (c : Char) :
    space c ns = .separator [c] :: ns := by
  fun_cases space c ns with
  | case1 => cases ends
  | case2 => rfl

/-- Siblings that were written are read again in front of a text where nothing goes on. -/
theorem nest_render {ns : List Node} (lettered : Lettered ns) (apart : Apart ns) {depth : Nat}
    {rest : Text} {after : List (List Node)} (behind : nest (lex depth .plain rest) = ⟨[], after⟩) :
    nest (lex depth .plain (render ns ++ rest)) = ⟨ns, after⟩ := by
  induction lettered generalizing depth rest after with
  | nil => simpa using behind
  | word letters _ ih =>
    cases apart with
    | word some_left ends later =>
      rw [render_cons, renderNode_word, List.append_assoc, nest_letters _ _ letters, ih later behind]
      simp only [foldr_spell some_left (spell_fresh ends)]
  | separator separators _ ih =>
    cases apart with
    | separator some_left ends later =>
      rw [render_cons, renderNode_separator, List.append_assoc, nest_separators _ _ separators,
        ih later behind]
      simp only [foldr_space some_left (space_fresh ends)]
  | @call name args ns letters _ _ ihInside ihLater =>
    cases apart with
    | call _ inside later =>
      have siblings := ihLater later behind
      have closing : nest (lex (depth + 1) .plain (')' :: (render ns ++ rest))) = ⟨[], ns :: after⟩ := by
        rw [nest_closing, siblings]
        rfl
      have arguments := ihInside inside closing
      have opening : nest (lex depth .plain ('(' :: (render args ++ ')' :: (render ns ++ rest)))) =
          ⟨.call [] args :: ns, after⟩ := by
        rw [nest_opening, arguments]
        rfl
      have written : render (.call name args :: ns) ++ rest =
          name ++ '(' :: (render args ++ ')' :: (render ns ++ rest)) := by simp
      rw [written, nest_letters _ _ letters, opening]
      simp only [spell_call, List.append_nil]

section

variable {c : Char} {ns : List Node}

theorem Lettered.of_spell (lettered : Lettered (spell c ns)) : Lettered ns := by
  revert lettered
  fun_cases spell c ns with
  | case1 =>
    rintro ⟨⟩
    exact .word (List.forall_mem_cons.mp ‹_›).2 ‹_›
  | case2 =>
    rintro ⟨⟩
    exact .call (List.forall_mem_cons.mp ‹_›).2 ‹_› ‹_›
  | case3 =>
    rintro ⟨⟩
    assumption

theorem Lettered.of_space (lettered : Lettered (space c ns)) : Lettered ns := by
  revert lettered
  fun_cases space c ns with
  | case1 =>
    rintro ⟨⟩
    exact .separator (List.forall_mem_cons.mp ‹_›).2 ‹_›
  | case2 =>
    rintro ⟨⟩
    assumption

theorem Apart.spell (apart : Apart ns) : Apart (spell c ns) := by
  cases apart with
  | nil => exact .word (List.cons_ne_nil c []) rfl .nil
  | word _ ends later => exact .word (List.cons_ne_nil c _) ends later
  | separator some_left ends later =>
    exact .word (List.cons_ne_nil c []) rfl (.separator some_left ends later)
  | call name inside later => exact .call (c :: name) inside later

theorem Apart.space (apart : Apart ns) : Apart (space c ns) := by
  cases apart with
  | nil => exact .separator (List.cons_ne_nil c []) rfl .nil
  | word some_left ends later =>
    exact .separator (List.cons_ne_nil c []) rfl (.word some_left ends later)
  | separator _ ends later => exact .separator (List.cons_ne_nil c _) ends later
  | call name inside later => exact .separator (List.cons_ne_nil c []) rfl (.call name inside later)

end

/-- Nodes that are read do not run together. The one word that may stand right in front of
another holds the parenthesis that nothing closes, so it has other characters. -/
theorem apart_parse {t : Text} (lettered : Lettered (parse t)) : Apart (parse t) := by
  refine (nest_lex_induction (motive := fun _ _ _ g => (Lettered g.here → Apart g.here) ∧
    ∀ ns ∈ g.after, Lettered ns → Apart ns) ?_ ?_ ?_ ?_ ?_ 0 .plain t).1 lettered
  · intro depth s
    exact ⟨fun _ => .nil, by simp⟩
  · rintro depth s c rest g - ⟨here, later⟩
    exact ⟨fun lettered => (here lettered.of_spell).spell, later⟩
  · rintro depth c rest g - - ⟨here, later⟩
    exact ⟨fun lettered => (here lettered.of_space).space, later⟩
  · rintro depth rest ⟨here, _ | ⟨siblings, after⟩⟩ ⟨apart, later⟩
    · refine ⟨fun lettered => ?_, later⟩
      cases lettered with
      | word letters => exact absurd (letters '(' (by simp)) (by decide)
    · obtain ⟨outer, later⟩ := List.forall_mem_cons.mp later
      refine ⟨fun lettered => ?_, later⟩
      cases lettered with
      | call _ inside behind => exact .call [] (apart inside) (outer behind)
  · rintro depth rest g ⟨here, later⟩
    exact ⟨fun _ => .nil, List.forall_mem_cons.mpr ⟨here, later⟩⟩

/-- Reading undoes writing exactly if no word or separator is empty or runs into the node
behind it. -/
theorem parse_render_iff {ns : List Node} (lettered : Lettered ns) :
    parse (render ns) = ns ↔ Apart ns := by
  constructor
  · intro same
    have apart := apart_parse (t := render ns)
    rw [same] at apart
    exact apart lettered
  · intro apart
    have read : nest (lex 0 .plain (render ns ++ [])) = ⟨ns, []⟩ := nest_render lettered apart rfl
    rw [List.append_nil] at read
    rw [parse, read]

theorem nested_calls_come_back :
    let tree : List Node := [.call "calc" [.word "1", .separator " ", .word "+", .separator ", ",
      .call "f" [], .call [] [.word "a"], .word "%"], .separator ":"]
    parse (render tree) = tree := by
  intro tree
  have lettered : Lettered tree :=
    .call (forall_of_all rfl) (.word (forall_of_all rfl) (.separator (forall_of_all rfl)
      (.word (forall_of_all rfl) (.separator (forall_of_all rfl) (.call (forall_of_all rfl) .nil
        (.call (forall_of_all rfl) (.word (forall_of_all rfl) .nil) (.word (forall_of_all rfl)
          .nil))))))) (.separator (forall_of_all rfl) .nil)
  refine (parse_render_iff lettered).mpr ?_
  exact .call _ (.word (by decide) rfl (.separator (by decide) rfl (.word (by decide) rfl
    (.separator (by decide) rfl (.call _ .nil (.call _ (.word (by decide) rfl .nil)
      (.word (by decide) rfl .nil))))))) (.separator (by decide) rfl .nil)

end AtomicCss.Value
