import AtomicCss.Proofs.Text.Name
import AtomicCss.Proofs.Value.Tree

/-! Calls in any text, whether its parentheses match or not. A call of the tree
stands for a whole piece of the text: every parenthesis among its arguments has
its partner there, and what stands in front of its name ends another piece. The
other way round, a name with complete arguments is read as one call. -/
namespace AtomicCss.Value

/-- How many parentheses are open, and the state, after one more character. No
answer where a parenthesis closes nothing. -/
def pass (p : Nat × Scan) (c : Char) : Option (Nat × Scan) :=
  if p.2.live c then
    if c = '(' then some (p.1 + 1, .plain)
    else if c = ')' then if p.1 = 0 then none else some (p.1 - 1, .plain)
    else some (p.1, .plain)
  else some (p.1, p.2.next c)

def passes (p : Nat × Scan) (t : Text) : Option (Nat × Scan) := t.foldlM pass p

/-- Every parenthesis has its partner in the text, and no quote or escape is left open. -/
def Complete (t : Text) : Prop := passes (0, .plain) t = some (0, .plain)

instance (t : Text) : Decidable (Complete t) :=
  inferInstanceAs (Decidable (passes (0, .plain) t = some (0, .plain)))

theorem passes_cons (p : Nat × Scan) (c : Char) (t : Text) :
    passes p (c :: t) = (pass p c).bind fun q => passes q t := by
  simp [passes, List.foldlM_cons]

theorem passes_append {p q : Nat × Scan} {a : Text} (first : passes p a = some q) (b : Text) :
    passes p (a ++ b) = passes q b := by
  rw [passes, passes, List.foldlM_append]
  rw [passes] at first
  simp [first]

/-- A character that opens and closes nothing. -/
theorem pass_inward {s : Scan} {c : Char} (inward : s.live c = true → c ≠ '(' ∧ c ≠ ')') (n : Nat) :
    pass (n, s) c = some (n, s.next c) := by
  unfold pass
  split
  · rename_i live
    obtain ⟨opens, closes⟩ := inward live
    rw [if_neg opens, if_neg closes, Scan.next_of_live live]
  · rfl

theorem pass_above {n m : Nat} {s s' : Scan} {c : Char} (step : pass (n, s) c = some (m, s'))
    (k : Nat) : pass (n + k, s) c = some (m + k, s') := by
  simp only [pass] at step ⊢
  by_cases live : s.live c = true
  · rw [if_pos live] at step ⊢
    by_cases opens : c = '('
    · rw [if_pos opens] at step ⊢
      cases step
      have shifted : n + k + 1 = n + 1 + k := by omega
      rw [shifted]
    · rw [if_neg opens] at step ⊢
      by_cases closes : c = ')'
      · rw [if_pos closes] at step ⊢
        by_cases outer : n = 0
        · rw [if_pos outer] at step
          cases step
        · rw [if_neg outer] at step
          cases step
          have inside : n + k ≠ 0 := by omega
          have shifted : n + k - 1 = n - 1 + k := by omega
          rw [if_neg inside, shifted]
      · rw [if_neg closes] at step ⊢
        cases step
        rfl
  · rw [if_neg live] at step ⊢
    cases step
    rfl

/-- Parentheses that are open around a text change nothing in it. -/
theorem passes_above {n m : Nat} {s s' : Scan} {t : Text} (done : passes (n, s) t = some (m, s'))
    (k : Nat) : passes (n + k, s) t = some (m + k, s') := by
  induction t generalizing n s with
  | nil =>
    cases done
    rfl
  | cons c t ih =>
    rw [passes_cons] at done ⊢
    obtain ⟨⟨i, r⟩, step, rest⟩ := Option.bind_eq_some_iff.mp done
    rw [pass_above step k]
    exact ih rest

/-- A pair of parentheses around a text that is complete. -/
theorem passes_pair {t : Text} (complete : Complete t) (rest : Text) :
    passes (0, .plain) ('(' :: (t ++ ')' :: rest)) = passes (0, .plain) rest := by
  have inside : passes (1, .plain) t = some (1, .plain) := passes_above complete 1
  have opened : pass (0, .plain) '(' = some (1, .plain) := rfl
  have closed : pass (1, .plain) ')' = some (0, .plain) := rfl
  rw [passes_cons, opened, Option.bind_some, passes_append inside, passes_cons, closed,
    Option.bind_some]

/-- A text that closes what is open in front of it is read in front of one more parenthesis as it is
read alone, and what is behind that parenthesis is read apart. -/
theorem nest_complete {n : Nat} {s : Scan} {t : Text} (done : passes (n, s) t = some (0, .plain))
    (depth : Nat) (rest : Text) :
    (nest (lex n s t)).after.length = n ∧
      nest (lex (n + depth + 1) s (t ++ ')' :: rest)) =
        ⟨(nest (lex n s t)).here, (nest (lex n s t)).after ++
          (nest (lex depth .plain rest)).here :: (nest (lex depth .plain rest)).after⟩ := by
  induction t generalizing n s with
  | nil =>
    cases done
    rw [List.nil_append, Nat.zero_add, nest_closing]
    exact ⟨rfl, rfl⟩
  | cons c t ih =>
    rw [passes_cons] at done
    obtain ⟨⟨m, s'⟩, step, done⟩ := Option.bind_eq_some_iff.mp done
    rw [List.cons_append]
    rcases reading_cases (n + depth + 1) s c with inward | ⟨rfl, rfl⟩ | ⟨rfl, rfl, outer, same⟩ |
      ⟨rfl, live, separates⟩
    · have alone : Inward n s c := fun lives => by
        obtain ⟨opens, closes, separates⟩ := inward lives
        exact ⟨opens, fun same => closes ⟨same.1, by omega⟩, separates⟩
      have stays : pass (n, s) c = some (n, s.next c) := pass_inward (fun lives => by
        obtain ⟨opens, closes, -⟩ := inward lives
        exact ⟨opens, fun same => closes ⟨same, by omega⟩⟩) n
      rw [stays] at step
      cases step
      obtain ⟨closed, read⟩ := ih done
      rw [nest_word _ _ inward, nest_word _ _ alone, read]
      exact ⟨closed, rfl⟩
    · cases step
      obtain ⟨closed, read⟩ := ih done
      have deeper : n + 1 + depth + 1 = n + depth + 1 + 1 := by omega
      rw [deeper] at read
      rw [nest_opening, nest_opening, read]
      generalize nest (lex (n + 1) .plain t) = g at closed ⊢
      obtain ⟨here, after⟩ := g
      cases after with
      | nil => cases closed
      | cons siblings after => exact ⟨Nat.succ.inj closed, rfl⟩
    · cases n with
      | zero => cases step
      | succ k =>
        cases step
        obtain ⟨closed, read⟩ := ih (n := k) done
        have deeper : k + 1 + depth + 1 = k + depth + 1 + 1 := by omega
        rw [deeper, nest_closing, nest_closing, read]
        exact ⟨congrArg Nat.succ closed, rfl⟩
    · have stays : pass (n, .plain) c = some (n, Scan.plain.next c) := pass_inward (fun _ => by
        constructor <;> (rintro rfl; cases separates)) n
      rw [stays, Scan.next_of_live live] at step
      cases step
      obtain ⟨closed, read⟩ := ih done
      rw [nest_separator _ _ live separates, nest_separator _ _ live separates, read]
      exact ⟨closed, rfl⟩

theorem isWordChar_of_isNameChar {c : Char} (name : Text.isNameChar c = true) : isWordChar c = true := by
  have other {d : Char} (outside : Text.isNameChar d = false) : c ≠ d :=
    Text.ne_of_isNameChar name outside
  simp [isWordChar, isSeparator, Scan.isQuote, other (d := '\\') (by decide),
    other (d := '"') (by decide), other (d := '\'') (by decide), other (d := '(') (by decide),
    other (d := ')') (by decide), other (d := ',') (by decide), other (d := ':') (by decide),
    Text.visible_of_isNameChar name]

/-- A call with complete arguments is read alone, in front of what is behind it. -/
theorem nest_call {name arguments : Text} (letters : ∀ c ∈ name, isWordChar c = true)
    (complete : Complete arguments) (depth : Nat) (rest : Text) :
    nest (lex depth .plain (name ++ '(' :: (arguments ++ ')' :: rest))) =
      (nest (lex depth .plain rest)).cons (.call name (parse arguments)) := by
  obtain ⟨closed, read⟩ := nest_complete complete depth rest
  rw [Nat.zero_add, List.eq_nil_of_length_eq_zero closed] at read
  rw [nest_letters _ _ letters, nest_opening, read]
  simp only [List.nil_append, Nesting.openCall, spell_call, List.append_nil]
  rfl

/-- A name with complete arguments is read as one call. -/
theorem parse_call {name arguments : Text} (letters : ∀ c ∈ name, isWordChar c = true)
    (complete : Complete arguments) :
    parse (name ++ '(' :: (arguments ++ [')'])) = [.call name (parse arguments)] := by
  rw [parse, nest_call letters complete 0 []]
  rfl

/-- What may stand right in front of the name of a call. -/
def Boundary (c : Char) : Prop := c = '(' ∨ c = ')' ∨ isSeparator c = true

/-- A call comes first. -/
def Calls (ns : List Node) : Prop := ∃ name args rest, ns = .call name args :: rest

/-- The arguments of each call are complete, here and below, and in front of each
call but the first of the siblings there is a boundary. -/
inductive Formed : List Node → Prop
  | nil : Formed []
  | leaf {n : Node} {ns : List Node} (leaf : ∀ name args, n ≠ .call name args)
      (apart : Calls ns → ∃ c, (renderNode n).getLast? = some c ∧ Boundary c)
      (later : Formed ns) : Formed (n :: ns)
  | call {name : Text} {args ns : List Node} (complete : Complete (render args))
      (inside : Formed args) (later : Formed ns) : Formed (.call name args :: ns)

theorem Formed.spell {ns : List Node} (formed : Formed ns) (c : Char) : Formed (spell c ns) := by
  have alone {ns : List Node} (formed : Formed ns) (other : ¬ Calls ns) :
      Formed (.word [c] :: ns) := .leaf nofun (fun calls => absurd calls other) formed
  cases formed with
  | nil => exact alone .nil nofun
  | call complete inside later => exact .call complete inside later
  | @leaf n ns leaf apart later =>
    cases n with
    | call name args => exact absurd rfl (leaf name args)
    | separator t => exact alone (.leaf leaf apart later) nofun
    | word t =>
      refine .leaf nofun (fun calls => ?_) later
      obtain ⟨d, last, boundary⟩ := apart calls
      rw [renderNode_word] at last
      exact ⟨d, by simp [List.getLast?_cons, last], boundary⟩

theorem Formed.space {ns : List Node} (formed : Formed ns) {c : Char}
    (separates : isSeparator c = true) : Formed (space c ns) := by
  have boundary : Boundary c := .inr (.inr separates)
  have alone {ns : List Node} (formed : Formed ns) : Formed (.separator [c] :: ns) :=
    .leaf nofun (fun _ => ⟨c, by simp, boundary⟩) formed
  cases formed with
  | nil => exact alone .nil
  | call complete inside later => exact alone (.call complete inside later)
  | @leaf n ns leaf apart later =>
    cases n with
    | call name args => exact absurd rfl (leaf name args)
    | word t => exact alone (.leaf leaf apart later)
    | separator t =>
      refine .leaf nofun (fun calls => ?_) later
      obtain ⟨d, last, boundary⟩ := apart calls
      rw [renderNode_separator] at last
      exact ⟨d, by simp [List.getLast?_cons, last], boundary⟩

/-- Each list of siblings that a parenthesis closes further on is complete when it gets there. -/
def Sealed : Scan → List Node → List (List Node) → Prop
  | _, _, [] => True
  | s, here, siblings :: after =>
    passes (0, s) (render here) = some (0, .plain) ∧ Sealed .plain siblings after

/-- What holds of the siblings of a text while it is read. -/
structure Paired (depth : Nat) (s : Scan) (g : Nesting) : Prop where
  shallow : g.after.length ≤ depth
  complete : Sealed s g.here g.after
  here : Formed g.here
  after : ∀ ns ∈ g.after, Formed ns

namespace Paired

variable {depth : Nat} {s : Scan} {g : Nesting}

/-- A character of a word or of a separator, put in front of the siblings. -/
theorem cons {c : Char} {here : List Node} (paired : Paired depth (s.next c) g)
    (inward : 0 < depth → s.live c = true → c ≠ '(' ∧ c ≠ ')') (formed : Formed here)
    (written : render here = c :: render g.here) : Paired depth s { g with here } := by
  refine ⟨paired.shallow, ?_, formed, paired.after⟩
  obtain ⟨old, after⟩ := g
  cases after with
  | nil => trivial
  | cons siblings after =>
    have shallow : after.length + 1 ≤ depth := paired.shallow
    have step := pass_inward (inward (by omega)) 0
    refine ⟨?_, paired.complete.2⟩
    rw [written, passes_cons, step]
    exact paired.complete.1

theorem openCall (paired : Paired (depth + 1) .plain g) : Paired depth .plain (g.openCall []) := by
  obtain ⟨here, after⟩ := g
  cases after with
  | nil =>
    have opened : Formed (.word ['('] :: here) :=
      .leaf nofun (fun _ => ⟨'(', rfl, .inl rfl⟩) paired.here
    exact ⟨Nat.zero_le depth, trivial, opened, nofun⟩
  | cons siblings after =>
    have complete : Complete (render here) := paired.complete.1
    have call : Formed (.call [] here :: siblings) :=
      .call complete paired.here (paired.after siblings List.mem_cons_self)
    refine ⟨Nat.le_of_succ_le_succ paired.shallow, ?_, call, fun ns member =>
      paired.after ns (List.mem_cons_of_mem siblings member)⟩
    cases after with
    | nil => trivial
    | cons outer after =>
      refine ⟨?_, paired.complete.2.2⟩
      have written : render (.call [] here :: siblings) =
          '(' :: (render here ++ ')' :: render siblings) := by simp
      have pair := passes_pair complete (render siblings)
      rw [← written] at pair
      exact pair.trans paired.complete.2.1

theorem close (paired : Paired depth .plain g) : Paired (depth + 1) .plain g.close := by
  refine ⟨Nat.succ_le_succ paired.shallow, ⟨rfl, paired.complete⟩, .nil, ?_⟩
  intro ns member
  rcases List.mem_cons.mp member with rfl | member
  · exact paired.here
  · exact paired.after ns member

end Paired

theorem paired_nest (depth : Nat) (s : Scan) (t : Text) : Paired depth s (nest (lex depth s t)) := by
  refine nest_lex_induction (motive := fun depth s _ g => Paired depth s g) ?_ ?_ ?_ ?_ ?_ depth s t
  · intro depth s
    exact ⟨Nat.zero_le depth, trivial, .nil, nofun⟩
  · intro depth s c rest g inward paired
    refine paired.cons (fun inside live => ?_) (paired.here.spell c) (render_spell c g.here)
    obtain ⟨opens, closes, -⟩ := inward live
    exact ⟨opens, fun same => closes ⟨same, inside⟩⟩
  · intro depth c rest g live separates paired
    rw [← Scan.next_of_live live] at paired
    refine paired.cons (fun _ _ => ?_) (paired.here.space separates) (render_space c g.here)
    constructor <;> (rintro rfl; cases separates)
  · intro depth rest g paired
    exact paired.openCall
  · intro depth rest g paired
    exact paired.close

/-- The calls of a text are whole pieces of it. -/
theorem formed_parse (t : Text) : Formed (parse t) := (paired_nest 0 .plain t).here

end AtomicCss.Value
