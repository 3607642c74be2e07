import AtomicCss.Migration.Stylesheet
import AtomicCss.Proofs.Migration.CallReplacement

/-! What migrating a style sheet may change. A statement ends at a brace or a
semicolon that no quote and no parenthesis covers. Calls are replaced inside of
statements, each by what its kind of statement asks for, and the prelude of a
rule that is no at-rule stays as it is. -/
namespace AtomicCss.Migration
open Text Value

/-- The quote and the number of parentheses that are open after one more character. -/
def cover : Option Char × Nat → Char → Option Char × Nat
  | (some q, depth), c => (if c = q then none else some q, depth)
  | (none, depth), c =>
    if c = '"' ∨ c = '\'' then (some c, depth)
    else if c = '(' then (none, depth + 1)
    else if c = ')' then (none, depth - 1)
    else (none, depth)

/-- What covers the character behind a text. -/
def covered (p : Option Char × Nat) (t : Text) : Option Char × Nat := t.foldl cover p

/-- A statement ends at the character that stands behind the text. -/
def Cut (before : Text) (c : Char) : Prop :=
  isTerminator c = true ∧ covered (none, 0) before = (none, 0)

/-- In a style sheet that begins with these three, the body is a statement. -/
structure Statement (before body : Text) (terminator : Char) : Prop where
  starts : before = [] ∨ ∃ earlier c, before = earlier ++ [c] ∧ Cut earlier c
  whole : ∀ inner c later, body = inner ++ c :: later → ¬ Cut (before ++ inner) c
  ends : Cut (before ++ body) terminator

/-- What the calls of a statement stand in: it is an at-rule if an at sign comes first. -/
def contextOf (body : Text) : Context :=
  match trimStart body with
  | '@' :: _ => .atRule
  | _ => .declaration

/-- No token of the theme belongs to a namespace that a path can begin with. -/
def Barren (theme : Theme) : Prop :=
  ∀ entry ∈ pathRoots, ∀ name, theme.contains name = true → Theme.inNamespace entry.2 name = false

theorem covered_append (p : Option Char × Nat) (a b : Text) :
    covered p (a ++ b) = covered (covered p a) b := List.foldl_append

/-- A terminator opens and closes nothing. -/
theorem cover_terminator {c : Char} (ends : isTerminator c = true) (depth : Nat) :
    cover (none, depth) c = (none, depth) := by
  simp only [isTerminator, Bool.or_eq_true, beq_iff_eq] at ends
  rcases ends with (rfl | rfl) | rfl <;> rfl

section

variable (p : Option Char × Nat) (c : Char) (t : Text)

theorem statements_cut (ends : isTerminator c = true) :
    statements none 0 (c :: t) = ([], some c) :: statements none 0 t := by
  simp [statements, ends]

theorem statements_inside (inside : isTerminator c = true → p ≠ (none, 0)) :
    statements p.1 p.2 (c :: t) = consStatement c (statements (cover p c).1 (cover p c).2 t) := by
  obtain ⟨quote, depth⟩ := p
  cases quote with
  | some q => simp [statements, cover]
  | none =>
    have covers : ¬ (isTerminator c && depth == 0) = true := by
      simpa using inside
    rw [statements, if_neg covers, cover]
    split
    · rfl
    · split
      · rfl
      · split <;> rfl

end

/-- The statements and their ends make up the style sheet. -/
theorem statements_text (quote : Option Char) (depth : Nat) (css : Text) :
    ((statements quote depth css).flatMap fun (t, terminator) => t ++ terminator.toList) = css := by
  induction css generalizing quote depth with
  | nil => rfl
  | cons c rest ih =>
    by_cases cut : isTerminator c = true ∧ (quote, depth) = (none, 0)
    · obtain ⟨ends, bare⟩ := cut
      cases bare
      rw [statements_cut c rest ends, List.flatMap_cons, ih]
      rfl
    · rw [statements_inside (quote, depth) c rest fun ends bare => cut ⟨ends, bare⟩]
      have later := ih (cover (quote, depth) c).1 (cover (quote, depth) c).2
      revert later
      cases statements (cover (quote, depth) c).1 (cover (quote, depth) c).2 rest with
      | nil =>
        intro later
        cases later
        rfl
      | cons s ss =>
        intro later
        rw [← later]
        rfl

/-- What stands behind a cut is read by itself. -/
theorem statements_behind (p : Option Char × Nat) {earlier : Text} {c : Char}
    (ends : isTerminator c = true) (bare : covered p earlier = (none, 0)) :
    ∃ s ss, ∀ rest, statements p.1 p.2 (earlier ++ c :: rest) = s :: (ss ++ statements none 0 rest) := by
  induction earlier generalizing p with
  | nil =>
    cases bare
    exact ⟨([], some c), [], fun rest => statements_cut c rest ends⟩
  | cons d earlier ih =>
    obtain ⟨s, ss, split⟩ := ih (cover p d) bare
    by_cases cut : isTerminator d = true ∧ p = (none, 0)
    · obtain ⟨ends', rfl⟩ := cut
      rw [cover_terminator ends'] at split
      refine ⟨([], some d), s :: ss, fun rest => ?_⟩
      rw [List.cons_append, statements_cut d _ ends', split]
      rfl
    · refine ⟨(d :: s.1, s.2), ss, fun rest => ?_⟩
      rw [List.cons_append, statements_inside p d _ fun ends' same => cut ⟨ends', same⟩, split]
      rfl

/-- A text without a cut up to its end is one statement. -/
theorem statements_whole (p : Option Char × Nat) {body : Text} {terminator : Char}
    (whole : ∀ inner c later, body = inner ++ c :: later → isTerminator c = true →
      covered p inner ≠ (none, 0))
    (ends : isTerminator terminator = true) (bare : covered p body = (none, 0)) (rest : Text) :
    statements p.1 p.2 (body ++ terminator :: rest) =
      (body, some terminator) :: statements none 0 rest := by
  induction body generalizing p with
  | nil =>
    cases bare
    exact statements_cut terminator rest ends
  | cons c body ih =>
    have first : isTerminator c = true → p ≠ (none, 0) := whole [] c body rfl
    have later := ih (cover p c) (fun inner d behind same => whole (c :: inner) d behind (by rw [same]; rfl)) bare
    rw [List.cons_append, statements_inside p c _ first, later]
    rfl

section

variable {theme : Theme}

theorem stylesheet_behind {earlier : Text} {c : Char} (cut : Cut earlier c) (rest : Text) :
    migrateStylesheet theme (earlier ++ c :: rest) =
      migrateStylesheet theme (earlier ++ [c]) ++ migrateStylesheet theme rest := by
  obtain ⟨s, ss, split⟩ := statements_behind (none, 0) cut.1 cut.2
  have last : statements none 0 [] = [([], none)] := rfl
  have blank : migrateStatement theme [] none = [] := by simp [migrateStatement, splitFirst]
  simp [migrateStylesheet, split, last, blank]

/-- A statement is migrated by itself. -/
theorem stylesheet_statement {before body : Text} {terminator : Char}
    (statement : Statement before body terminator) (after : Text) :
    migrateStylesheet theme (before ++ (body ++ terminator :: after)) =
      migrateStylesheet theme before ++
        (migrateStatement theme body (some terminator) ++ terminator :: migrateStylesheet theme after) := by
  have bare : covered (none, 0) before = (none, 0) := by
    rcases statement.starts with rfl | ⟨earlier, c, rfl, cut⟩
    · rfl
    · rw [covered_append, cut.2]
      exact cover_terminator cut.1 0
  have inside : covered (none, 0) body = (none, 0) := by
    have ends := statement.ends.2
    rwa [covered_append, bare] at ends
  have body_read (rest : Text) := statements_whole (none, 0)
    (fun inner c later same ends nothing => statement.whole inner c later same
      ⟨ends, by rw [covered_append, bare, nothing]⟩) statement.ends.1 inside rest
  have here : migrateStylesheet theme (body ++ terminator :: after) =
      migrateStatement theme body (some terminator) ++ terminator :: migrateStylesheet theme after := by
    simp [migrateStylesheet, body_read]
  rw [← here]
  rcases statement.starts with rfl | ⟨earlier, c, rfl, cut⟩
  · have blank : migrateStylesheet theme [] = [] := by
      simp [migrateStylesheet, statements, migrateStatement, splitFirst]
    rw [blank]
    rfl
  · rw [List.append_assoc, List.singleton_append, stylesheet_behind cut]

theorem atRule_parts {t rest : Text} (lead : trimStart t = '@' :: rest) :
    t = (t.takeWhile isBlank ++ '@' :: rest.takeWhile isNameChar) ++ rest.dropWhile isNameChar ∧
      ∀ terminator, migrateStatement theme t terminator =
        (t.takeWhile isBlank ++ '@' :: rest.takeWhile isNameChar) ++
          migrateValue theme .atRule (rest.dropWhile isNameChar) := by
  rw [trimStart] at lead
  constructor
  · rw [List.append_assoc, List.cons_append, List.takeWhile_append_dropWhile, ← lead,
      List.takeWhile_append_dropWhile]
  · intro terminator
    simp only [migrateStatement, lead]

/-- A statement that is no at-rule: a prelude stays, and else a value is what the first colon leaves. -/
theorem migrateStatement_plain {t : Text} (plain : contextOf t = .declaration)
    (terminator : Option Char) : migrateStatement theme t terminator =
      if terminator = some '\x7b' then t
      else match splitFirst ':' t with
        | some (property, value) => property ++ ':' :: migrateValue theme .declaration value
        | none => t := by
  unfold contextOf trimStart at plain
  unfold migrateStatement
  split at plain
  · cases plain
  · rename_i other
    split
    · rename_i rest lead
      exact absurd lead (other rest)
    · rfl

theorem replaced_migrateStatement (t : Text) (terminator : Option Char) (before : Option Char) :
    Replaced theme (· = contextOf t) before t (migrateStatement theme t terminator) := by
  cases kind : contextOf t with
  | atRule =>
    obtain ⟨rest, lead⟩ : ∃ rest, trimStart t = '@' :: rest := by
      unfold contextOf at kind
      split at kind
      · rename_i rest lead
        exact ⟨rest, lead⟩
      · cases kind
    obtain ⟨parts, migrated⟩ := @atRule_parts theme t rest lead
    rw [migrated]
    conv => arg 4; rw [parts]
    apply (Replaced.same before _).append
    apply (replaced_migrateValue theme .atRule _).behind
    -- The name of the at-rule would go on with a letter.
    intro head
    have stops := List.head?_dropWhile_not isNameChar rest
    rw [head] at stops
    cases stops
  | declaration =>
    rw [migrateStatement_plain kind]
    split
    · exact .same before t
    · split
      · rename_i property value cut
        obtain ⟨rfl, -⟩ := splitFirst_eq_some.mp cut
        have parts (v : Text) : property ++ ':' :: v = (property ++ [':']) ++ v := by simp
        rw [parts value, parts (migrateValue theme .declaration value)]
        apply (Replaced.same before _).append
        apply (replaced_migrateValue theme .declaration value).behind
        rw [front_append]
        rintro - c ⟨⟩
        exact .inr (.inr rfl)
      · exact .same before t

/-- A migrated style sheet is the style sheet with calls replaced. -/
theorem replaced_migrateStylesheet (theme : Theme) (css : Text) :
    Replaced theme (fun _ => True) none css (migrateStylesheet theme css) := by
  have run (ss : List (Text × Option Char)) (before : Option Char) :
      Replaced theme (fun _ => True) before
        (ss.flatMap fun (t, terminator) => t ++ terminator.toList)
        (ss.flatMap fun (t, terminator) => migrateStatement theme t terminator ++ terminator.toList) := by
    induction ss generalizing before with
    | nil => exact .nil before
    | cons s ss ih =>
      obtain ⟨t, terminator⟩ := s
      have statement : Replaced theme (fun _ => True) before t (migrateStatement theme t terminator) :=
        (replaced_migrateStatement t terminator before).mono fun _ _ => trivial
      exact (statement.append (.same _ terminator.toList)).append (ih _)
  have whole := run (statements none 0 css) none
  rwa [statements_text] at whole

theorem unasked_of_barren (barren : Barren theme) (arguments token : Text) (modifier : Option Text) :
    ¬ Asks theme arguments token modifier := by
  have unnamed (path token : Text) : ¬ Names theme path token := by
    rintro ⟨-, root, parts, ns, -, entry, held, rfl⟩
    have outside := barren _ entry _ held
    cases shown : parts.filter (· != Theme.defaultKey) with
    | nil => simp [Theme.inNamespace, shown] at outside
    | cons p ps =>
      have inside : (ns ++ ['-']) <+: ns ++ ('-' :: p ++ ps.flatMap fun p => '-' :: p) :=
        ⟨p ++ ps.flatMap fun p => '-' :: p, by simp⟩
      rw [shown, List.flatMap_cons, Theme.inNamespace, List.isPrefixOf_iff_prefix.mpr inside,
        Bool.or_true] at outside
      cases outside
  rintro (named | ⟨-, -, -, -, named⟩)
  · exact unnamed _ _ named
  · exact unnamed _ _ named

/-- Migrating changes calls of the theme and nothing else. -/
theorem migration_replaces_calls (theme : Theme) :
    (∀ context t, Replaced theme (· = context) none t (migrateValue theme context t)) ∧
    (∀ context arguments token modifier, Complete arguments → Asks theme arguments token modifier →
      migrateValue theme context ("theme(".toList ++ (arguments ++ [')'])) =
        reference context token modifier) ∧
    (∀ css, Replaced theme (fun _ => True) none css (migrateStylesheet theme css)) ∧
    (Barren theme → (∀ context t, migrateValue theme context t = t) ∧
      ∀ css, migrateStylesheet theme css = css) ∧
    ∀ before body terminator after, Statement before body terminator →
      ∃ body', Replaced theme (· = contextOf body) before.getLast? body body' ∧
        migrateStylesheet theme (before ++ (body ++ terminator :: after)) =
          migrateStylesheet theme before ++ (body' ++ terminator :: migrateStylesheet theme after) ∧
        (terminator = '\x7b' → contextOf body = .declaration → body' = body) := by
  refine ⟨replaced_migrateValue theme, ?_, replaced_migrateStylesheet theme,
    fun barren => ⟨?_, ?_⟩, ?_⟩
  · intro context arguments token modifier complete asked
    exact migrateValue_call context complete asked
  · intro context t
    exact (replaced_migrateValue theme context t).eq_of_unasked (unasked_of_barren barren)
  · intro css
    exact (replaced_migrateStylesheet theme css).eq_of_unasked (unasked_of_barren barren)
  · intro before body terminator after statement
    refine ⟨migrateStatement theme body (some terminator), replaced_migrateStatement _ _ _,
      stylesheet_statement statement after, ?_⟩
    rintro rfl plain
    rw [migrateStatement_plain plain, if_pos rfl]

/-- A selector that holds a call, in front of a declaration that holds the same one, and a value
with a modifier. -/
theorem migration_keeps_selector :
    let red := Theme.empty.insert "--color-red-500".toList "red".toList
    let selector := ".a:is(theme(colors.red.500))".toList
    let rest := "color:theme(colors.red.500)\x7d".toList
    Statement [] selector '\x7b' ∧ contextOf selector = .declaration ∧ Barren Theme.empty ∧
      Asks red "colors[red].500 / 5 0%" "--color-red-500" (some "50%".toList) ∧
      migrateStylesheet red (selector ++ '\x7b' :: rest) =
        selector ++ '\x7b' :: "color:var(--color-red-500)\x7d".toList ∧
      migrateStylesheet Theme.empty (selector ++ '\x7b' :: rest) = selector ++ '\x7b' :: rest ∧
      migrateValue red .declaration "theme(colors[red].500 / 5 0%)" =
        "theme(--color-red-500 / 50%)".toList := by
  intro red selector rest
  have no_end : selector.any isTerminator = false := rfl
  have statement : Statement [] selector '\x7b' := by
    refine ⟨.inl rfl, ?_, rfl, rfl⟩
    rintro inner c later whole ⟨ends, -⟩
    exact List.any_eq_false.mp no_end c (by simp [whole]) ends
  have plain : contextOf selector = .declaration := rfl
  have barren : Barren Theme.empty := by
    intro entry _ name held
    cases held
  have asked : Asks red "colors[red].500 / 5 0%" "--color-red-500" (some "50%".toList) :=
    request_eq_some.mp (by decide +kernel)
  have complete : Complete "colors[red].500 / 5 0%" := by decide +kernel
  have migrated : migrateStylesheet red rest = "color:var(--color-red-500)\x7d".toList := by decide +kernel
  have blank : migrateStylesheet red [] = [] := rfl
  obtain ⟨-, called, -, -, framed⟩ := migration_replaces_calls red
  obtain ⟨-, -, -, unchanged, -⟩ := migration_replaces_calls Theme.empty
  have value := called .declaration _ _ _ complete asked
  refine ⟨statement, plain, barren, asked, ?_, (unchanged barren).2 _, value⟩
  obtain ⟨body', -, whole, kept⟩ := framed [] selector '\x7b' rest statement
  rw [kept rfl plain, blank, migrated] at whole
  exact whole

end

end AtomicCss.Migration
