import AtomicCss.Proofs.Text.Replacement
import AtomicCss.Proofs.Theme.OrderedMap
import Mathlib.Data.List.Flatten

/-! How the blocks of a theme are found in a style sheet and cut into declarations. The end
of a block is found by its braces alone: braces in a string count, and a comment that begins
in a string hides what follows. The declarations of a block are cut at semicolons, where
strings do count. -/
namespace AtomicCss.Theme
open Text

/-- No comment begins in the text. -/
def Uncommented (t : Text) : Prop := ¬ "/*".toList <:+: t

/-- How many braces are open behind a text, if each one that closes has a partner. -/
def openBraces (depth : Nat) : Text → Option Nat
  | [] => some depth
  | c :: rest =>
    if c = '\x7b' then openBraces (depth + 1) rest
    else if c = '\x7d' then if depth = 0 then none else openBraces (depth - 1) rest
    else openBraces depth rest

theorem uncommented_nil : Uncommented [] := by
  rw [Uncommented, List.infix_nil]
  decide

theorem uncommented_cons {c : Char} {t : Text} :
    Uncommented (c :: t) ↔ ¬ (c = '/' ∧ t.head? = some '*') ∧ Uncommented t := by
  have opens : "/*".toList <+: c :: t ↔ c = '/' ∧ t.head? = some '*' := by
    cases t with
    | nil => simp
    | cons d t => simp [List.cons_prefix_cons, eq_comm]
  rw [Uncommented, List.infix_cons_iff, opens, not_or]
  rfl

instance : (t : Text) → Decidable (Uncommented t)
  | [] => isTrue uncommented_nil
  | c :: t =>
    have : Decidable (Uncommented t) := instDecidableUncommented t
    decidable_of_iff (¬ (c = '/' ∧ t.head? = some '*') ∧ Uncommented t) uncommented_cons.symm

theorem Uncommented.part {a b : Text} (uncommented : Uncommented b) (part : a <:+: b) : Uncommented a :=
  fun comment => uncommented (comment.trans part)

/-- Two texts without comments make up another one, unless a comment begins where they meet. -/
theorem Uncommented.append {a b : Text} (first : Uncommented a) (second : Uncommented b)
    (apart : ¬ (a.getLast? = some '/' ∧ b.head? = some '*')) : Uncommented (a ++ b) := by
  induction a with
  | nil => exact second
  | cons c a ih =>
    obtain ⟨here, later⟩ := uncommented_cons.mp first
    rw [List.cons_append, uncommented_cons]
    cases a with
    | nil => exact ⟨by simpa using apart, second⟩
    | cons d a =>
      rw [List.getLast?_cons_cons] at apart
      exact ⟨here, ih later apart⟩

theorem uncommented_of_not_mem {t : Text} (absent : '/' ∉ t) : Uncommented t :=
  fun comment => absent (comment.subset (by simp))

theorem openBraces_append (depth : Nat) (a b : Text) :
    openBraces depth (a ++ b) = (openBraces depth a).bind fun open_there => openBraces open_there b := by
  induction a generalizing depth with
  | nil => rfl
  | cons c a ih =>
    rw [List.cons_append, openBraces, openBraces]
    split
    · exact ih _
    · split
      · split
        · rfl
        · exact ih _
      · exact ih _

theorem openBraces_plain {t : Text} (plain : ∀ c ∈ t, c ≠ '\x7b' ∧ c ≠ '\x7d') (depth : Nat) :
    openBraces depth t = some depth := by
  induction t with
  | nil => rfl
  | cons c t ih =>
    obtain ⟨⟨opens, closes⟩, later⟩ := List.forall_mem_cons.mp plain
    rw [openBraces, if_neg opens, if_neg closes, ih later]

/-- Texts that open and close the same braces may stand for one another. -/
theorem openBraces_flatMap {α : Type} {l : List α} {f g : α → Text}
    (same : ∀ a ∈ l, ∀ depth, openBraces depth (f a) = openBraces depth (g a)) (depth : Nat) :
    openBraces depth (l.flatMap f) = openBraces depth (l.flatMap g) := by
  induction l generalizing depth with
  | nil => rfl
  | cons a l ih =>
    obtain ⟨first, later⟩ := List.forall_mem_cons.mp same
    rw [List.flatMap_cons, List.flatMap_cons, openBraces_append, openBraces_append, first]
    exact Option.bind_congr fun open_there _ => ih later open_there

theorem openBraces_between {a b : Text} (plain : ∀ c ∈ a, c ≠ '\x7b' ∧ c ≠ '\x7d')
    (plain' : ∀ c ∈ b, c ≠ '\x7b' ∧ c ≠ '\x7d') (t : Text) (depth : Nat) :
    openBraces depth (a ++ (t ++ b)) = openBraces depth t := by
  rw [openBraces_append, openBraces_plain plain, Option.bind_some, openBraces_append]
  cases openBraces depth t with
  | none => rfl
  | some open_there => exact openBraces_plain plain' open_there

section

variable {t body after : Text} {depth : Nat}

/-- One character of a block, where no comment begins. -/
theorem splitBlock_cons {c : Char} {rest : Text} (plain : ¬ (c = '/' ∧ rest.head? = some '*')) :
    splitBlock .code depth (c :: rest) =
      if c = '\x7d' ∧ depth = 0 then some ([], rest)
      else (splitBlock .code (if c = '\x7b' then depth + 1 else if c = '\x7d' then depth - 1 else depth)
        rest).map fun (body, after) => (c :: body, after) := by
  rw [splitBlock.eq_def]
  by_cases opens : c = '\x7b'
  · simp [opens]
  · by_cases closes : c = '\x7d'
    · cases depth <;> simp [closes]
    · simp [plain, opens, closes]

theorem splitBlock_text {within : Surroundings} (found : splitBlock within depth t = some (body, after)) :
    t = body ++ '\x7d' :: after := by
  induction t generalizing within depth body with
  | nil => simp [splitBlock] at found
  | cons c rest ih =>
    have goOn {w : Surroundings} {d : Nat} (later : Option.map (fun x : Text × Text => (c :: x.1, x.2))
        (splitBlock w d rest) = some (body, after)) : c :: rest = body ++ '\x7d' :: after := by
      obtain ⟨⟨inner, behind⟩, inside, same⟩ := Option.map_eq_some_iff.mp later
      cases same
      rw [List.cons_append, ← ih inside]
    unfold splitBlock at found
    dsimp only at found
    repeat' split at found
    all_goals first
      | exact goOn found
      | (cases found; simp_all)

/-- Without comments the block ends where its braces match. -/
theorem splitBlock_eq_some_iff (uncommented : Uncommented body) :
    splitBlock .code depth (body ++ '\x7d' :: after) = some (body, after) ↔ openBraces depth body = some 0 := by
  induction body generalizing depth with
  | nil =>
    have plain : ¬ ('\x7d' = '/' ∧ after.head? = some '*') := by simp
    rw [List.nil_append, splitBlock_cons plain, openBraces]
    by_cases outer : depth = 0
    · simp [outer]
    · simp [outer]
  | cons c body ih =>
    obtain ⟨here, later⟩ := uncommented_cons.mp uncommented
    have plain : ¬ (c = '/' ∧ (body ++ '\x7d' :: after).head? = some '*') := by
      cases body with
      | nil => simp
      | cons d body => simpa using here
    have inside (d : Nat) : ((splitBlock .code d (body ++ '\x7d' :: after)).map fun (body, after) =>
        (c :: body, after)) = some (c :: body, after) ↔ openBraces d body = some 0 := by
      rw [← ih later]
      simp
    rw [List.cons_append, splitBlock_cons plain, openBraces]
    by_cases closes : c = '\x7d'
    · have other : c ≠ '\x7b' := by simp [closes]
      by_cases outer : depth = 0
      · simp [closes, outer]
      · rw [if_neg (by simp [outer]), inside, if_neg other, if_neg other, if_pos closes, if_pos closes,
          if_neg outer]
    · rw [if_neg (by simp [closes]), inside]
      by_cases opens : c = '\x7b'
      · rw [if_pos opens, if_pos opens]
      · rw [if_neg opens, if_neg opens, if_neg closes, if_neg closes]

theorem firstBlock_text (found : firstBlock t = some (body, after)) :
    ∃ front, t = front ++ '\x7b' :: (body ++ '\x7d' :: after) ∧ '\x7b' ∉ front := by
  unfold firstBlock at found
  split at found
  · rename_i front rest cut
    obtain ⟨whole, first⟩ := splitFirst_eq_some.mp cut
    exact ⟨front, by rw [whole, splitBlock_text found], first⟩
  · cases found

/-- Behind a text without braces the first block is the one that opens there. -/
theorem firstBlock_opening {front : Text} (first : '\x7b' ∉ front) (rest : Text) :
    firstBlock (front ++ '\x7b' :: rest) = splitBlock .code 0 rest := by
  rw [firstBlock, splitFirst_eq_some.mpr ⟨rfl, first⟩]

theorem blocksFrom_nil (p : Place) : blocksFrom p [] = [] := by rw [blocksFrom]

theorem theme_starts {p : Place} (top : p.isTopLevel = true) (named : "@theme".toList <+: t) :
    (p.isTopLevel && List.isPrefixOf "@theme".toList t) = true := by
  rw [top, Bool.true_and, List.isPrefixOf_iff_prefix]
  exact named

/-- A theme block that has an end is read, and the search goes on behind it. -/
theorem blocksFrom_theme {p : Place} {read : Text} (top : p.isTopLevel = true) (named : "@theme".toList <+: t)
    (found : firstBlock t = some (body, after)) (whole : t = read ++ after) :
    blocksFrom p t = body :: blocksFrom (p.after read) after := by
  cases t with
  | nil => cases found
  | cons c rest =>
    have taken : (c :: rest).take (rest.length + 1 - after.length) = read := by
      have length : rest.length + 1 = read.length + after.length := by
        rw [← List.length_append, ← whole]
        rfl
      rw [whole, List.take_left' (by omega)]
    rw [blocksFrom.eq_def]
    simp only [theme_starts top named, if_true]
    split
    · rename_i none_there
      rw [found] at none_there
      cases none_there
    · rename_i body' after' there
      rw [found] at there
      cases there
      rw [taken]

/-- A theme block that has no end stops the search. -/
theorem blocksFrom_endless {p : Place} (top : p.isTopLevel = true) (named : "@theme".toList <+: t)
    (endless : firstBlock t = none) : blocksFrom p t = [] := by
  cases t with
  | nil => rw [blocksFrom]
  | cons c rest =>
    rw [blocksFrom.eq_def]
    simp only [theme_starts top named, if_true]
    split
    · rfl
    · rename_i there
      rw [endless] at there
      cases there

theorem blocksFrom_cons {p : Place} {c : Char} {rest : Text}
    (other : p.isTopLevel = true → ¬ "@theme".toList <+: c :: rest) :
    blocksFrom p (c :: rest) = blocksFrom (p.next c rest.head?) rest := by
  have passes : (p.isTopLevel && List.isPrefixOf "@theme".toList (c :: rest)) = false := by
    cases top : p.isTopLevel with
    | false => rfl
    | true =>
      rw [Bool.true_and, ← Bool.not_eq_true, List.isPrefixOf_iff_prefix]
      exact other top
  rw [blocksFrom.eq_def]
  simp only [passes]
  rfl

/-- Each block that is read takes a brace that closes it along. -/
theorem count_blocksFrom (p : Place) (t : Text) :
    (blocksFrom p t).flatten.count '\x7d' + (blocksFrom p t).length ≤ t.count '\x7d' := by
  fun_induction blocksFrom p t with
  | case1 p => simp
  | case2 p c rest starts endless => simp
  | case3 p c rest starts body after found ih =>
    obtain ⟨front, whole, -⟩ := firstBlock_text found
    have counted : (c :: rest).count '\x7d' = front.count '\x7d' + (body.count '\x7d' + (after.count '\x7d' + 1)) := by
      simp [whole]
    rw [List.flatten_cons, List.count_append, List.length_cons, counted]
    omega
  | case4 p c rest other ih =>
    rw [List.count_cons]
    omega

/-- One character that begins no comment is kept. -/
theorem dropComments_cons {c : Char} (plain : ¬ (c = '/' ∧ t.head? = some '*')) :
    dropComments false (c :: t) = c :: dropComments false t := by
  cases t with
  | nil => simp [dropComments]
  | cons d t =>
    have other : ¬ (c = '/' ∧ d = '*') := by simpa using plain
    simp [dropComments, other]

theorem dropComments_eq_self (uncommented : Uncommented t) : dropComments false t = t := by
  induction t with
  | nil => rfl
  | cons c t ih =>
    obtain ⟨plain, later⟩ := uncommented_cons.mp uncommented
    rw [dropComments_cons plain, ih later]

theorem dropComments_sublist (inside : Bool) (t : Text) : (dropComments inside t).Sublist t := by
  fun_induction dropComments inside t with
  | case1 inside => exact .slnil
  | case2 c => exact .cons c .slnil
  | case3 inside c outside => exact .refl [c]
  | case4 c d rest ends ih => exact .cons c (.cons d ih)
  | case5 c d rest other ih => exact .cons c ih
  | case6 inside c d rest outside begins ih => exact .cons c (.cons d ih)
  | case7 inside c d rest outside other ih => exact .cons_cons c ih

/-- A comment takes a slash along. -/
theorem count_dropComments (commented : ¬ Uncommented t) :
    (dropComments false t).count '/' < t.count '/' := by
  induction t with
  | nil => exact absurd uncommented_nil commented
  | cons c t ih =>
    by_cases plain : c = '/' ∧ t.head? = some '*'
    · obtain ⟨rfl, star⟩ := plain
      obtain ⟨rest, rfl⟩ : ∃ rest, t = '*' :: rest := by
        cases t with
        | nil => cases star
        | cons d rest =>
          obtain rfl : d = '*' := by simpa using star
          exact ⟨rest, rfl⟩
      have dropped : dropComments false ('/' :: '*' :: rest) = dropComments true rest := by simp [dropComments]
      have fewer := (dropComments_sublist true rest).count_le '/'
      rw [dropped, List.count_cons_self]
      simp
      omega
    · have later : ¬ Uncommented t := fun later => commented (uncommented_cons.mpr ⟨plain, later⟩)
      rw [dropComments_cons plain, List.count_cons, List.count_cons]
      exact Nat.add_lt_add_right (ih later) _

end

/-- The quote and the number of parentheses and braces that are open after one more character of
a declaration. No answer where a semicolon ends it. -/
def hold (p : Option Char × Nat) (c : Char) : Option (Option Char × Nat) :=
  match p with
  | (some q, depth) => some (if c = q then none else some q, depth)
  | (none, depth) =>
    if c = ';' ∧ depth = 0 then none
    else if c = '"' ∨ c = '\'' then some (some c, depth)
    else if c = '\x7b' ∨ c = '(' then some (none, depth + 1)
    else if c = '\x7d' ∨ c = ')' then some (none, depth - 1)
    else some (none, depth)

/-- What is open behind a text that no semicolon cuts. -/
def holds (p : Option Char × Nat) (t : Text) : Option (Option Char × Nat) := t.foldlM hold p

/-- No semicolon cuts the text, and it leaves nothing open. -/
def Whole (t : Text) : Prop := holds (none, 0) t = some (none, 0)

instance (t : Text) : Decidable (Whole t) := inferInstanceAs (Decidable (_ = _))

theorem holds_cons (p : Option Char × Nat) (c : Char) (t : Text) :
    holds p (c :: t) = (hold p c).bind fun q => holds q t := by
  simp [holds, List.foldlM_cons]

theorem holds_append {p q : Option Char × Nat} {a : Text} (first : holds p a = some q) (b : Text) :
    holds p (a ++ b) = holds q b := by
  rw [holds] at first
  simp [holds, List.foldlM_append, first]

theorem Whole.append {a b : Text} (first : Whole a) (second : Whole b) : Whole (a ++ b) :=
  (holds_append first b).trans second

theorem whole_nil : Whole [] := rfl

theorem Whole.flatMap {α : Type} {l : List α} {f : α → Text} (whole : ∀ a ∈ l, Whole (f a)) :
    Whole (l.flatMap f) := by
  induction l with
  | nil => exact whole_nil
  | cons a l ih =>
    obtain ⟨first, later⟩ := List.forall_mem_cons.mp whole
    exact first.append (ih later)

/-- Characters that open and close nothing. -/
theorem whole_of_plain {t : Text} (plain : ∀ c ∈ t, c ∉ ";\"'\x7b\x7d()".toList) : Whole t := by
  induction t with
  | nil => rfl
  | cons c t ih =>
    obtain ⟨first, later⟩ := List.forall_mem_cons.mp plain
    have stays : hold (none, 0) c = some (none, 0) := by
      simp_all [hold]
    rw [Whole, holds_cons, stays]
    exact ih later

/-- A string in quotes holds any other character. -/
theorem whole_string {inner : Text} (closed : '"' ∉ inner) : Whole ('"' :: (inner ++ ['"'])) := by
  have inside : holds (some '"', 0) inner = some (some '"', 0) := by
    induction inner with
    | nil => rfl
    | cons c inner ih =>
      obtain ⟨other, later⟩ := not_or.mp (mt List.mem_cons.mpr closed)
      have stays : hold (some '"', 0) c = some (some '"', 0) := by simp [hold, Ne.symm other]
      rw [holds_cons, stays]
      exact ih later
  have opened : hold (none, 0) '"' = some (some '"', 0) := rfl
  rw [Whole, holds_cons, opened, Option.bind_some, holds_append inside]
  rfl

theorem statements_ne_nil (quote : Option Char) (depth : Nat) (t : Text) : statements quote depth t ≠ [] := by
  have head (c : Char) (pieces : List Text) : consHead c pieces ≠ [] := by cases pieces <;> exact nofun
  fun_induction statements quote depth t with
  | case1 => exact nofun
  | case3 => exact nofun
  | _ => exact head _ _

theorem statements_step {p q : Option Char × Nat} {c : Char} (step : hold p c = some q) (t : Text) :
    statements p.1 p.2 (c :: t) = consHead c (statements q.1 q.2 t) := by
  obtain ⟨quote, depth⟩ := p
  cases quote with
  | some opened =>
    cases step
    rfl
  | none =>
    rw [hold] at step
    rw [statements]
    by_cases cut : c = ';' ∧ depth = 0
    · rw [if_pos cut] at step
      cases step
    · rw [if_neg cut] at step ⊢
      split at step
      · rename_i opens
        cases step
        rw [if_pos opens]
      · rename_i unquoted
        rw [if_neg unquoted]
        split at step
        · rename_i opens
          cases step
          rw [if_pos opens]
        · rename_i unopened
          rw [if_neg unopened]
          split at step
          · rename_i closes
            cases step
            rw [if_pos closes]
          · rename_i open_still
            cases step
            rw [if_neg open_still]

/-- A text that no semicolon cuts stays together. -/
theorem statements_append {p q : Option Char × Nat} {a : Text} (held : holds p a = some q) (t : Text) :
    statements p.1 p.2 (a ++ t) = glue a (statements q.1 q.2 t) := by
  induction a generalizing p with
  | nil =>
    cases held
    rw [List.nil_append, glue_nil (statements_ne_nil q.1 q.2 t)]
  | cons c a ih =>
    rw [holds_cons] at held
    obtain ⟨r, step, later⟩ := Option.bind_eq_some_iff.mp held
    rw [List.cons_append, statements_step step, ih later, consHead_glue]

theorem statements_whole {a : Text} (whole : Whole a) (t : Text) :
    statements none 0 (a ++ ';' :: t) = a :: statements none 0 t := by
  have cut : statements none 0 (';' :: t) = [] :: statements none 0 t := by simp [statements]
  rw [statements_append whole, cut, glue_cons, List.append_nil]

/-- Semicolons between whole texts cut them apart. -/
theorem statements_joinWith {a : Text} {pieces : List Text} (whole : ∀ p ∈ a :: pieces, Whole p) :
    statements none 0 (joinWith [';'] (a :: pieces)) = a :: pieces := by
  induction pieces generalizing a with
  | nil =>
    have alone := statements_append (whole a List.mem_cons_self) []
    rw [List.append_nil] at alone
    simpa [joinWith, List.intercalate, statements] using alone
  | cons b pieces ih =>
    obtain ⟨first, later⟩ := List.forall_mem_cons.mp whole
    rw [joinWith_cons_cons, List.singleton_append, statements_whole first, ih later]

theorem statements_sublist (quote : Option Char) (depth : Nat) (t : Text) :
    (statements quote depth t).flatten.Sublist t := by
  have head (c : Char) {pieces : List Text} {rest : Text} (sub : pieces.flatten.Sublist rest) :
      (consHead c pieces).flatten.Sublist (c :: rest) := by
    cases pieces with
    | nil => exact .cons_cons c (List.nil_sublist rest)
    | cons p pieces => exact .cons_cons c sub
  fun_induction statements quote depth t with
  | case1 => exact .slnil
  | case3 depth c rest cut ih => exact .cons c ih
  | case2 depth c rest q ih => exact head c ih
  | case4 depth c rest _ _ ih => exact head c ih
  | case5 depth c rest _ _ _ ih => exact head c ih
  | case6 depth c rest _ _ _ _ ih => exact head c ih
  | case7 depth c rest _ _ _ _ ih => exact head c ih

theorem declaration_eq_some {t name value : Text} : declaration? t = some (name, value) ↔
    ∃ before behind, trim t = before ++ ':' :: behind ∧ ':' ∉ before ∧ trim before = name ∧
      trim behind = value ∧ "--".toList <+: name ∧ value ≠ [] := by
  rw [declaration?]
  constructor
  · intro found
    obtain ⟨⟨before, behind⟩, cut, rest⟩ := Option.bind_eq_some_iff.mp found
    obtain ⟨whole, first⟩ := splitFirst_eq_some.mp cut
    dsimp only at rest
    split at rest
    · rename_i named
      cases rest
      rw [Bool.and_eq_true, List.isPrefixOf_iff_prefix] at named
      exact ⟨before, behind, whole, first, rfl, rfl, named.1, by simpa using named.2⟩
    · cases rest
  · rintro ⟨before, behind, whole, first, rfl, rfl, dashed, some_value⟩
    have named : (List.isPrefixOf "--".toList (trim before) && !(trim behind).isEmpty) = true := by
      rw [Bool.and_eq_true, List.isPrefixOf_iff_prefix]
      exact ⟨dashed, by simpa using some_value⟩
    rw [splitFirst_eq_some.mpr ⟨whole, first⟩]
    exact if_pos named

theorem trim_sublist (t : Text) : (trim t).Sublist t := by
  obtain ⟨before, behind, whole, -⟩ := trim_parts t
  have part : trim t <:+: t := ⟨before, behind, by rw [List.append_assoc, ← whole]⟩
  exact part.sublist

theorem declaration_sublist {t name value : Text} (found : declaration? t = some (name, value)) :
    value.Sublist t := by
  obtain ⟨before, behind, whole, -, -, rfl, -⟩ := declaration_eq_some.mp found
  have part : behind.Sublist (trim t) := by
    rw [whole]
    exact (List.sublist_cons_self ':' behind).trans (List.sublist_append_right before _)
  exact (trim_sublist behind).trans (part.trans (trim_sublist t))

/-- The declared values stand in the block, outside of comments. -/
theorem values_sublist (body : Text) :
    ((declarations body).flatMap Prod.snd).Sublist (dropComments false body) := by
  have pieces (l : List Text) : ((l.filterMap declaration?).flatMap Prod.snd).Sublist l.flatten := by
    induction l with
    | nil => exact .slnil
    | cons t l ih =>
      rw [List.flatten_cons]
      cases found : declaration? t with
      | none =>
        rw [List.filterMap_cons_none found]
        exact ih.trans (List.sublist_append_right t _)
      | some d =>
        rw [List.filterMap_cons_some found, List.flatMap_cons]
        exact (declaration_sublist found).append ih
  exact (pieces _).trans (statements_sublist none 0 _)

/-- The entries of a theme are what the declarations of its blocks make of a plain list. -/
theorem entries_ofCss (css : Text) : (ofCss css).entries =
    ((blocks css).flatMap declarations).foldl (fun l d => Plain.declare d.1 d.2 l) [] :=
  entries_change inStep_empty (.apply css)

end AtomicCss.Theme
