import AtomicCss.Proofs.Text.Track
import AtomicCss.Value.Lexeme
import Mathlib.Data.List.Forall2

/-! Value trees are built from right to left, one character at a time. The
induction principle below follows that construction, so that a fact about the
tree of a text is shown by what one more character in front does to it. No
text is lost on the way: the lexemes of a text are the text, the tree keeps each
of them, and writing the tree gives the text back. -/
namespace AtomicCss.Value

/-- Lists of siblings, by their first node and the arguments that it has if it is a call. -/
theorem nodes_induction {motive : List Node → Prop} (nil : motive [])
    (cons : ∀ n ns, (∀ name args, n = .call name args → motive args) → motive ns → motive (n :: ns)) :
    (nodes : List Node) → motive nodes
  | [] => nil
  | .word t :: ns => cons (.word t) ns nofun (nodes_induction nil cons ns)
  | .separator t :: ns => cons (.separator t) ns nofun (nodes_induction nil cons ns)
  | .call name args :: ns => by
    have inside := nodes_induction nil cons args
    apply cons (.call name args) ns _ (nodes_induction nil cons ns)
    rintro _ _ ⟨⟩
    exact inside

/-- Puts a character in front of the word, or the name of a call, that comes first. -/
def spell (c : Char) : List Node → List Node
  | .word t :: ns => .word (c :: t) :: ns
  | .call name args :: ns => .call (c :: name) args :: ns
  | ns => .word [c] :: ns

/-- Puts a character in front of the separator that comes first. -/
def space (c : Char) : List Node → List Node
  | .separator t :: ns => .separator (c :: t) :: ns
  | ns => .separator [c] :: ns

/-- The character ends no word, so it belongs to one. -/
def Inward (depth : Nat) (s : Scan) (c : Char) : Prop :=
  s.live c = true → c ≠ '(' ∧ ¬ (c = ')' ∧ 0 < depth) ∧ isSeparator c = false

/-- A character that only belongs to words, and neither escapes nor quotes what follows. -/
def isWordChar (c : Char) : Bool :=
  c != '\\' && !Scan.isQuote c && c != '(' && c != ')' && !isSeparator c

theorem inward_of_isWordChar (depth : Nat) {c : Char} (letter : isWordChar c = true) :
    Inward depth .plain c ∧ Scan.plain.next c = .plain := by
  simp only [isWordChar, Bool.and_eq_true, bne_iff_ne, Bool.not_eq_true'] at letter
  obtain ⟨⟨⟨⟨backslash, quote⟩, opens⟩, closes⟩, separates⟩ := letter
  exact ⟨fun _ => ⟨opens, fun same => closes same.1, separates⟩, by simp [Scan.next, backslash, quote]⟩

/-- A character belongs to a word, or opens or closes a call, or separates. -/
theorem reading_cases (depth : Nat) (s : Scan) (c : Char) :
    Inward depth s c ∨ (s = .plain ∧ c = '(') ∨ (s = .plain ∧ c = ')' ∧ ∃ outer, depth = outer + 1) ∨
      (s = .plain ∧ s.live c = true ∧ isSeparator c = true) := by
  by_cases live : s.live c = true
  · obtain rfl := Scan.plain_of_live live
    by_cases opens : c = '('
    · exact .inr (.inl ⟨rfl, opens⟩)
    · by_cases closes : c = ')' ∧ 0 < depth
      · exact .inr (.inr (.inl ⟨rfl, closes.1, Nat.exists_eq_succ_of_ne_zero (by omega)⟩))
      · cases separates : isSeparator c with
        | true => exact .inr (.inr (.inr ⟨rfl, live, rfl⟩))
        | false => exact .inl fun _ => ⟨opens, closes, separates⟩
  · exact .inl fun lives => absurd lives live

private theorem nest_consWord (c : Char) (ls : List Lexeme) :
    nest (consWord c ls) = { nest ls with here := spell c (nest ls).here } := by
  cases ls with
  | nil => rfl
  | cons l ls =>
    cases l with
    | opening name =>
      simp only [consWord, nest, Nesting.openCall]
      cases (nest ls).after <;> rfl
    | _ => rfl

private theorem nest_consSeparator (c : Char) (ls : List Lexeme) :
    nest (consSeparator c ls) = { nest ls with here := space c (nest ls).here } := by
  cases ls with
  | nil => rfl
  | cons l ls =>
    cases l with
    | opening name =>
      simp only [consSeparator, nest, Nesting.openCall, Nesting.cons]
      cases (nest ls).after <;> rfl
    | _ => rfl

section

variable (depth : Nat) {s : Scan} {c : Char} (rest : Text)

theorem nest_word (inward : Inward depth s c) :
    nest (lex depth s (c :: rest)) =
      { nest (lex depth (s.next c) rest) with here := spell c (nest (lex depth (s.next c) rest)).here } := by
  rw [← nest_consWord, lex]
  split
  · rfl
  · rename_i live
    obtain ⟨opens, closes, separates⟩ := inward (by simpa using live)
    rw [if_neg opens, if_neg (by simpa using closes), if_neg (by simp [separates])]

theorem nest_separator (live : Scan.plain.live c = true) (separates : isSeparator c = true) :
    nest (lex depth .plain (c :: rest)) =
      { nest (lex depth .plain rest) with here := space c (nest (lex depth .plain rest)).here } := by
  have opens : c ≠ '(' := by
    rintro rfl
    cases separates
  have closes : c ≠ ')' := by
    rintro rfl
    cases separates
  rw [← nest_consSeparator, lex, Scan.next_of_live live]
  simp [live, opens, closes, separates]

theorem nest_opening :
    nest (lex depth .plain ('(' :: rest)) = (nest (lex (depth + 1) .plain rest)).openCall [] := by
  have opened : Scan.plain.next '(' = .plain := rfl
  have live : Scan.plain.live '(' = true := rfl
  simp [lex, live, opened, nest]

theorem nest_closing :
    nest (lex (depth + 1) .plain (')' :: rest)) = (nest (lex depth .plain rest)).close := by
  have closed : Scan.plain.next ')' = .plain := rfl
  have live : Scan.plain.live ')' = true := rfl
  simp [lex, live, closed, nest]

theorem nest_letters {u : Text} (letters : ∀ c ∈ u, isWordChar c = true) :
    nest (lex depth .plain (u ++ rest)) =
      { nest (lex depth .plain rest) with here := u.foldr spell (nest (lex depth .plain rest)).here } := by
  induction u with
  | nil => rfl
  | cons c u ih =>
    obtain ⟨first, others⟩ := List.forall_mem_cons.mp letters
    obtain ⟨inward, stays⟩ := inward_of_isWordChar depth first
    rw [List.cons_append, nest_word depth _ inward, stays, ih others]
    rfl

end

/-- Reading a text, by the character that is put in front of what is read already. -/
theorem nest_lex_induction {motive : Nat → Scan → Text → Nesting → Prop}
    (nil : ∀ depth s, motive depth s [] ⟨[], []⟩)
    (word : ∀ depth s c rest g, Inward depth s c → motive depth (s.next c) rest g →
      motive depth s (c :: rest) { g with here := spell c g.here })
    (separator : ∀ depth c rest g, Scan.plain.live c = true → isSeparator c = true →
      motive depth .plain rest g →
      motive depth .plain (c :: rest) { g with here := space c g.here })
    (opening : ∀ depth rest g, motive (depth + 1) .plain rest g →
      motive depth .plain ('(' :: rest) (g.openCall []))
    (closing : ∀ depth rest g, motive depth .plain rest g →
      motive (depth + 1) .plain (')' :: rest) g.close)
    (depth : Nat) (s : Scan) (t : Text) : motive depth s t (nest (lex depth s t)) := by
  induction t generalizing depth s with
  | nil => exact nil depth s
  | cons c rest ih =>
    rcases reading_cases depth s c with inward | ⟨rfl, rfl⟩ | ⟨rfl, rfl, outer, rfl⟩ |
      ⟨rfl, live, separates⟩
    · rw [nest_word depth rest inward]
      exact word depth s c rest _ inward (ih depth (s.next c))
    · rw [nest_opening]
      exact opening depth rest _ (ih (depth + 1) .plain)
    · rw [nest_closing]
      exact closing outer rest _ (ih outer .plain)
    · rw [nest_separator depth rest live separates]
      exact separator depth c rest _ live separates (ih depth .plain)

@[simp] theorem render_nil : render [] = [] := by simp [render]

@[simp] theorem render_cons (n : Node) (ns : List Node) :
    render (n :: ns) = renderNode n ++ render ns := by simp [render]

@[simp] theorem renderNode_word (t : Text) : renderNode (.word t) = t := by simp [renderNode]

@[simp] theorem renderNode_separator (t : Text) : renderNode (.separator t) = t := by
  simp [renderNode]

@[simp] theorem renderNode_call (name : Text) (args : List Node) :
    renderNode (.call name args) = name ++ '(' :: (render args ++ [')']) := by simp [renderNode]

theorem render_spell (c : Char) (ns : List Node) : render (spell c ns) = c :: render ns := by
  fun_cases spell c ns <;> simp

theorem render_space (c : Char) (ns : List Node) : render (space c ns) = c :: render ns := by
  fun_cases space c ns <;> simp

/-- The siblings that start here, and behind each parenthesis the siblings that follow it. -/
def Nesting.text (g : Nesting) : Text :=
  render g.here ++ g.after.flatMap fun siblings => ')' :: render siblings

section

variable (ns : List Node) (after : List (List Node))

theorem text_spell (c : Char) : Nesting.text ⟨spell c ns, after⟩ = c :: Nesting.text ⟨ns, after⟩ := by
  simp [Nesting.text, render_spell]

theorem text_space (c : Char) : Nesting.text ⟨space c ns, after⟩ = c :: Nesting.text ⟨ns, after⟩ := by
  simp [Nesting.text, render_space]

theorem text_call (name : Text) (args : List Node) :
    Nesting.text ⟨.call name args :: ns, after⟩ =
      name ++ '(' :: (render args ++ ')' :: Nesting.text ⟨ns, after⟩) := by
  simp [Nesting.text]

theorem text_after (siblings : List Node) :
    Nesting.text ⟨ns, siblings :: after⟩ = render ns ++ ')' :: Nesting.text ⟨siblings, after⟩ := by
  simp [Nesting.text]

theorem text_alone : Nesting.text ⟨ns, []⟩ = render ns := by simp [Nesting.text]

end

theorem nest_text (depth : Nat) (s : Scan) (t : Text) : (nest (lex depth s t)).text = t := by
  refine nest_lex_induction (motive := fun _ _ t g => g.text = t) ?_ ?_ ?_ ?_ ?_ depth s t
  · intro depth s
    rfl
  · intro depth s c rest g _ read
    rw [text_spell, read]
  · intro depth c rest g _ _ read
    rw [text_space, read]
  · rintro depth rest ⟨here, after⟩ read
    cases after with
    | nil => simpa [Nesting.text, Nesting.openCall] using read
    | cons siblings after =>
      rw [text_after] at read
      rw [Nesting.openCall, text_call, List.nil_append, read]
  · rintro depth rest g read
    rw [Nesting.close, text_after, render_nil, List.nil_append, read]

theorem render_spelled (u : Text) (ns : List Node) : render (u.foldr spell ns) = u ++ render ns := by
  induction u with
  | nil => rfl
  | cons c u ih => rw [List.foldr_cons, render_spell, ih, List.cons_append]

theorem spell_word (u : Text) (t : Text) (ns : List Node) :
    u.foldr spell (.word t :: ns) = .word (u ++ t) :: ns := by
  induction u with
  | nil => rfl
  | cons c u ih =>
    rw [List.foldr_cons, ih]
    rfl

theorem spell_call (u name : Text) (args ns : List Node) :
    u.foldr spell (.call name args :: ns) = .call (u ++ name) args :: ns := by
  induction u with
  | nil => rfl
  | cons c u ih =>
    rw [List.foldr_cons, ih]
    rfl

/-- A word in front would go on here. -/
def headWord : List Node → Bool
  | .word _ :: _ => true
  | .call .. :: _ => true
  | _ => false

theorem spell_fresh {ns : List Node} (ends : headWord ns = false) (c : Char) :
    spell c ns = .word [c] :: ns := by
  fun_cases spell c ns with
  | case1 => cases ends
  | case2 => cases ends
  | case3 => rfl

theorem foldr_spell {p : Text} {ns : List Node} (some_left : p ≠ [])
    (fresh : ∀ c, spell c ns = .word [c] :: ns) : p.foldr spell ns = .word p :: ns := by
  induction p with
  | nil => contradiction
  | cons c p ih =>
    cases p with
    | nil => exact fresh c
    | cons d p => rw [List.foldr_cons, ih (by simp)]; rfl

theorem foldr_space {r : Text} {ns : List Node} (some_left : r ≠ [])
    (fresh : ∀ c, space c ns = .separator [c] :: ns) : r.foldr space ns = .separator r :: ns := by
  induction r with
  | nil => contradiction
  | cons c r ih =>
    cases r with
    | nil => exact fresh c
    | cons d r => rw [List.foldr_cons, ih (by simp)]; rfl

/-- The text that a lexeme is read from. -/
def Lexeme.text : Lexeme → Text
  | .word t => t
  | .separator t => t
  | .opening name => name ++ ['(']
  | .closing => [')']

theorem text_consWord (c : Char) (ls : List Lexeme) :
    (consWord c ls).flatMap Lexeme.text = c :: ls.flatMap Lexeme.text := by
  fun_cases consWord c ls <;> simp [Lexeme.text]

theorem text_consSeparator (c : Char) (ls : List Lexeme) :
    (consSeparator c ls).flatMap Lexeme.text = c :: ls.flatMap Lexeme.text := by
  fun_cases consSeparator c ls <;> simp [Lexeme.text]

/-- The lexemes of a text one after the other are the text. -/
theorem lex_text (depth : Nat) (s : Scan) (t : Text) : (lex depth s t).flatMap Lexeme.text = t := by
  induction t generalizing depth s with
  | nil => rfl
  | cons c rest ih =>
    simp only [lex]
    split
    · rw [text_consWord, ih]
    · split
      · rename_i opens
        simp [Lexeme.text, opens, ih]
      · split
        · rename_i closes
          obtain ⟨rfl, -⟩ : c = ')' ∧ 0 < depth := by simpa using closes
          simp [Lexeme.text, ih]
        · split
          · rw [text_consSeparator, ih]
          · rw [text_consWord, ih]

mutual

/-- The lexemes that a node is made of. -/
def lexemesNode : Node → List Lexeme
  | .word t => [.word t]
  | .separator t => [.separator t]
  | .call name args => .opening name :: (lexemes args ++ [.closing])

def lexemes : List Node → List Lexeme
  | [] => []
  | n :: ns => lexemesNode n ++ lexemes ns

end

mutual

theorem renderNode_eq_text : (n : Node) → renderNode n = (lexemesNode n).flatMap Lexeme.text
  | .word t => by simp [lexemesNode, Lexeme.text]
  | .separator t => by simp [lexemesNode, Lexeme.text]
  | .call name args => by simp [lexemesNode, Lexeme.text, render_eq_text args]

theorem render_eq_text : (ns : List Node) → render ns = (lexemes ns).flatMap Lexeme.text
  | [] => by simp [lexemes]
  | n :: ns => by simp [lexemes, renderNode_eq_text n, render_eq_text ns]

end

/-- A lexeme stays as it is, and an opening that nothing closes becomes a word. -/
inductive Lexeme.Becomes : Lexeme → Lexeme → Prop
  | same (l : Lexeme) : Becomes l l
  | unclosed (name : Text) : Becomes (.opening name) (.word (name ++ ['(']))

theorem text_of_becomes {ls ms : List Lexeme} (become : List.Forall₂ Lexeme.Becomes ls ms) :
    ls.flatMap Lexeme.text = ms.flatMap Lexeme.text := by
  induction become with
  | nil => rfl
  | cons first _ ih =>
    rw [List.flatMap_cons, List.flatMap_cons, ih]
    cases first with
    | same => rfl
    | unclosed name => rfl

/-- The lexemes of a nesting: each list of siblings stands behind the closing before it. -/
def Nesting.lexemes (g : Nesting) : List Lexeme :=
  Value.lexemes g.here ++ g.after.flatMap fun siblings => .closing :: Value.lexemes siblings

/-- Nesting keeps every lexeme in its place. -/
theorem nest_becomes (ls : List Lexeme) : List.Forall₂ Lexeme.Becomes ls (nest ls).lexemes := by
  induction ls with
  | nil => exact .nil
  | cons l ls ih =>
    cases l with
    | word t => exact .cons (.same _) ih
    | separator t => exact .cons (.same _) ih
    | closing => exact .cons (.same _) ih
    | opening name =>
      simp only [nest, Nesting.openCall]
      revert ih
      rcases nest ls with ⟨here, _ | ⟨siblings, after⟩⟩
      · intro ih
        exact .cons (.unclosed name) ih
      · intro ih
        have opened := List.Forall₂.cons (Lexeme.Becomes.same (.opening name)) ih
        simpa [Nesting.lexemes, lexemes, lexemesNode] using opened

/-- No more lists of siblings are closed than there are calls to close. -/
theorem nest_lex_depth (depth : Nat) (s : Scan) (t : Text) :
    (nest (lex depth s t)).after.length ≤ depth := by
  refine nest_lex_induction (motive := fun depth _ _ g => g.after.length ≤ depth)
    ?_ ?_ ?_ ?_ ?_ depth s t
  · intro depth s
    exact Nat.zero_le depth
  · intro depth s c rest g inward deep
    exact deep
  · intro depth c rest g live separates deep
    exact deep
  · rintro depth rest ⟨here, after⟩ deep
    cases after with
    | nil => exact Nat.zero_le depth
    | cons siblings after => exact Nat.le_of_succ_le_succ deep
  · intro depth rest g deep
    exact Nat.succ_le_succ deep

/-- The tree of a text keeps every lexeme in its place. -/
theorem parse_becomes (t : Text) : List.Forall₂ Lexeme.Becomes (lex 0 .plain t) (lexemes (parse t)) := by
  have closed := List.eq_nil_of_length_eq_zero (Nat.le_zero.mp (nest_lex_depth 0 .plain t))
  have become := nest_becomes (lex 0 .plain t)
  simpa [Nesting.lexemes, closed, parse] using become

/-- Writing the tree of a text gives the text back. -/
theorem render_parse (t : Text) : render (parse t) = t := by
  rw [render_eq_text, ← text_of_becomes (parse_becomes t), lex_text]

/-- No text is lost: the lexemes are the text, the tree keeps them all in their order, and writing
the tree gives the text. -/
theorem tokens_keep_text (t : Text) :
    (lex 0 .plain t).flatMap Lexeme.text = t ∧
      List.Forall₂ Lexeme.Becomes (lex 0 .plain t) (lexemes (parse t)) ∧ render (parse t) = t := by
  exact ⟨lex_text 0 .plain t, parse_becomes t, render_parse t⟩

end AtomicCss.Value
