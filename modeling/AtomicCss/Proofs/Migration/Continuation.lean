import AtomicCss.Proofs.Migration.CallScan
import AtomicCss.Proofs.Migration.Stylesheet

/-! Style sheets that are put together from two texts. The statements that end in the
first text are migrated by themselves, and the one that it leaves open goes on in the
second. The part of that statement in which calls are replaced begins behind the
name of an at-rule or behind the first colon, so it has begun in the first text or it
begins in the second. -/
namespace AtomicCss.Migration
open Text Value

/-- What the calls of a statement stand in, the text in front of the part in which they
are replaced, and that part. -/
def valuePart? (t : Text) : Option (Context × Text × Text) :=
  match t.dropWhile isBlank with
  | '@' :: rest =>
    some (.atRule, t.takeWhile isBlank ++ '@' :: rest.takeWhile isNameChar, rest.dropWhile isNameChar)
  | _ => (splitFirst ':' t).map fun parts => (.declaration, parts.1 ++ [':'], parts.2)

theorem valuePart_atRule {t rest : Text} (lead : trimStart t = '@' :: rest) : valuePart? t =
    some (.atRule, t.takeWhile isBlank ++ '@' :: rest.takeWhile isNameChar, rest.dropWhile isNameChar) := by
  rw [trimStart] at lead
  simp only [valuePart?, lead]

theorem valuePart_plain {t : Text} (plain : contextOf t = .declaration) : valuePart? t =
    (splitFirst ':' t).map fun parts => (.declaration, parts.1 ++ [':'], parts.2) := by
  unfold contextOf trimStart at plain
  unfold valuePart?
  split at plain
  · cases plain
  · rename_i other
    split
    · rename_i rest lead
      exact absurd lead (other rest)
    · rfl

theorem trimStart_of_atRule {t : Text} (kind : contextOf t = .atRule) :
    ∃ rest, trimStart t = '@' :: rest := by
  unfold contextOf at kind
  split at kind
  · rename_i rest lead
    exact ⟨rest, lead⟩
  · cases kind

theorem contextOf_of_valuePart {t front value : Text} {context : Context}
    (part : valuePart? t = some (context, front, value)) : contextOf t = context ∧ t = front ++ value := by
  cases kind : contextOf t with
  | atRule =>
    obtain ⟨rest, lead⟩ := trimStart_of_atRule kind
    rw [valuePart_atRule lead] at part
    cases part
    exact ⟨rfl, (@atRule_parts .empty t rest lead).1⟩
  | declaration =>
    rw [valuePart_plain kind] at part
    obtain ⟨⟨property, rest⟩, cut, same⟩ := Option.map_eq_some_iff.mp part
    cases same
    exact ⟨rfl, by simpa using (splitFirst_eq_some.mp cut).1⟩

section

variable {theme : Theme}

/-- Only the part behind the name or the colon is migrated, and no selector is. -/
theorem migrateStatement_eq (t : Text) (terminator : Option Char) :
    migrateStatement theme t terminator =
      match valuePart? t with
      | none => t
      | some (context, front, value) =>
        if context = .declaration ∧ terminator = some '\x7b' then t
        else front ++ migrateValue theme context value := by
  cases kind : contextOf t with
  | atRule =>
    obtain ⟨rest, lead⟩ := trimStart_of_atRule kind
    rw [valuePart_atRule lead, (atRule_parts lead).2]
    simp
  | declaration =>
    rw [valuePart_plain kind, migrateStatement_plain kind]
    cases cut : splitFirst ':' t with
    | none => simp
    | some parts => simp

/-- A text without calls of the theme stays. -/
theorem migrateValue_callless {context : Context} {t : Text} (callless : Callless t) :
    migrateValue theme context t = t := by
  have absent : ¬ occurs "theme(" t = true := fun found => callless ((occurs_iff _ _).mp found)
  rw [migrateValue, if_neg absent]

theorem migrateStatement_callless {t : Text} (callless : Callless t) (terminator : Option Char) :
    migrateStatement theme t terminator = t := by
  rw [migrateStatement_eq]
  split
  · rfl
  · rename_i context front value part
    split
    · rfl
    · have whole := (contextOf_of_valuePart part).2
      have inside : value <:+: t := ⟨front, [], by simp [whole]⟩
      rw [migrateValue_callless (callless.part inside), ← whole]

end

/-- A run that ends in a text ends there in front of anything. -/
theorem run_append {p : Char → Bool} {t : Text} (ends : t.dropWhile p ≠ []) (u : Text) :
    (t ++ u).takeWhile p = t.takeWhile p ∧ (t ++ u).dropWhile p = t.dropWhile p ++ u := by
  have whole := List.takeWhile_append_dropWhile (p := p) (l := t)
  have run (c : Char) (member : c ∈ t.takeWhile p) : p c = true := List.mem_takeWhile_imp member
  obtain ⟨c, rest, behind⟩ := List.exists_cons_of_ne_nil ends
  have stops : p c = false := by
    have head := List.head?_dropWhile_not p t
    rw [behind] at head
    exact head
  have split : t ++ u = t.takeWhile p ++ (c :: rest ++ u) := by
    rw [← List.append_assoc, ← behind, whole]
  rw [split, List.takeWhile_append_of_pos run, List.dropWhile_append_of_pos run, behind]
  simp [stops]

theorem contextOf_append {t : Text} (visible : trimStart t ≠ []) (u : Text) :
    contextOf (t ++ u) = contextOf t := by
  have goes_on : trimStart (t ++ u) = trimStart t ++ u := (run_append visible u).2
  obtain ⟨c, rest, lead⟩ := List.exists_cons_of_ne_nil visible
  rw [contextOf, contextOf, goes_on, lead, List.cons_append]
  split <;> split <;> simp_all

/-- A part that has begun goes on. -/
theorem valuePart_append {t front value : Text} {context : Context}
    (part : valuePart? t = some (context, front, value)) (begun : value ≠ []) (u : Text) :
    valuePart? (t ++ u) = some (context, front, value ++ u) := by
  obtain ⟨kind, whole⟩ := contextOf_of_valuePart part
  cases context with
  | atRule =>
    obtain ⟨rest, lead⟩ := trimStart_of_atRule kind
    have visible : trimStart t ≠ [] := by simp [lead]
    obtain ⟨blanks, goes_on⟩ := run_append visible u
    rw [valuePart_atRule lead] at part
    cases part
    have lead' : trimStart (t ++ u) = '@' :: (rest ++ u) := by
      rw [trimStart, goes_on]
      exact congrArg (· ++ u) lead
    obtain ⟨name, behind⟩ := run_append begun u
    rw [valuePart_atRule lead', blanks, name, behind]
  | declaration =>
    rw [valuePart_plain kind] at part
    obtain ⟨⟨property, rest⟩, cut, same⟩ := Option.map_eq_some_iff.mp part
    cases same
    obtain ⟨parts, first⟩ := splitFirst_eq_some.mp cut
    have visible : trimStart t ≠ [] := by
      intro blank
      have colon := List.dropWhile_eq_nil_iff.mp blank ':' (by simp [parts])
      cases colon
    have cut' : splitFirst ':' (t ++ u) = some (property, rest ++ u) :=
      splitFirst_eq_some.mpr ⟨by simp [parts], first⟩
    rw [valuePart_plain ((contextOf_append visible u).trans kind), cut']
    rfl

theorem valuePart_eq_none {t : Text} : valuePart? t = none ↔ contextOf t = .declaration ∧ ':' ∉ t := by
  cases kind : contextOf t with
  | atRule =>
    obtain ⟨rest, lead⟩ := trimStart_of_atRule kind
    simp [valuePart_atRule lead]
  | declaration => simp [valuePart_plain kind, splitFirst_eq_none]

/-- Where no part has begun, it begins behind the first colon. -/
theorem valuePart_behind {t : Text} (unbegun : valuePart? t = none) (visible : trimStart t ≠ [])
    (u : Text) :
    valuePart? (t ++ u) =
      (splitFirst ':' u).map fun parts => (.declaration, t ++ parts.1 ++ [':'], parts.2) := by
  obtain ⟨kind, absent⟩ := valuePart_eq_none.mp unbegun
  rw [valuePart_plain ((contextOf_append visible u).trans kind)]
  cases cut : splitFirst ':' u with
  | none =>
    have absent' : ':' ∉ t ++ u := by simp [absent, splitFirst_eq_none.mp cut]
    rw [splitFirst_eq_none.mpr absent']
    rfl
  | some parts =>
    obtain ⟨whole, first⟩ := splitFirst_eq_some.mp cut
    have cut' : splitFirst ':' (t ++ u) = some (t ++ parts.1, parts.2) :=
      splitFirst_eq_some.mpr ⟨by simp [whole], by simp [absent, first]⟩
    rw [cut']
    rfl

/-- The statement that has no end yet where the text ends. -/
def unfinished (t : Text) : Text := ((statements none 0 t).getLastD ([], none)).1

/-- Puts a text in front of the first statement. -/
def resume (r : Text) : List (Text × Option Char) → List (Text × Option Char)
  | [] => [(r, none)]
  | (t, terminator) :: rest => (r ++ t, terminator) :: rest

theorem statements_ne_nil (quote : Option Char) (depth : Nat) (css : Text) :
    statements quote depth css ≠ [] := by
  have cons (c : Char) (ss : List (Text × Option Char)) : consStatement c ss ≠ [] := by
    cases ss <;> exact List.cons_ne_nil _ _
  cases css with
  | nil => exact List.cons_ne_nil _ _
  | cons c rest =>
    by_cases cut : isTerminator c = true ∧ (quote, depth) = (none, 0)
    · obtain ⟨ends, bare⟩ := cut
      cases bare
      rw [statements_cut c rest ends]
      exact List.cons_ne_nil _ _
    · rw [statements_inside (quote, depth) c rest fun ends bare => cut ⟨ends, bare⟩]
      exact cons _ _

theorem consStatement_resume (c : Char) (r : Text) (ss : List (Text × Option Char)) :
    consStatement c (resume r ss) = resume (c :: r) ss := by
  cases ss <;> rfl

theorem resume_nil {ss : List (Text × Option Char)} (some_left : ss ≠ []) : resume [] ss = ss := by
  cases ss with
  | nil => contradiction
  | cons s ss => rfl

/-- Statements that have ended stay, and the last one goes on. -/
theorem statements_append (p : Option Char × Nat) (t : Text) : ∃ ss r,
    (ss.flatMap fun (t, terminator) => t ++ terminator.toList) ++ r = t ∧
      ∀ u, statements p.1 p.2 (t ++ u) =
        ss ++ resume r (statements (covered p t).1 (covered p t).2 u) := by
  induction t generalizing p with
  | nil => exact ⟨[], [], rfl, fun u => (resume_nil (statements_ne_nil _ _ _)).symm⟩
  | cons c t ih =>
    by_cases cut : isTerminator c = true ∧ p = (none, 0)
    · obtain ⟨ends, rfl⟩ := cut
      obtain ⟨ss, r, texts, whole⟩ := ih (none, 0)
      have same : covered (none, 0) (c :: t) = covered (none, 0) t :=
        congrArg (covered · t) (cover_terminator ends 0)
      refine ⟨([], some c) :: ss, r, by simp [← texts], fun u => ?_⟩
      rw [List.cons_append, statements_cut c _ ends, same]
      exact congrArg (([], some c) :: ·) (whole u)
    · obtain ⟨ss, r, texts, whole⟩ := ih (cover p c)
      have inside (u : Text) := statements_inside p c (t ++ u) fun ends bare => cut ⟨ends, bare⟩
      cases ss with
      | nil =>
        refine ⟨[], c :: r, by simp [← texts], fun u => ?_⟩
        rw [List.cons_append, inside, whole]
        exact consStatement_resume c r _
      | cons s ss =>
        refine ⟨(c :: s.1, s.2) :: ss, r, by simp [← texts], fun u => ?_⟩
        rw [List.cons_append, inside, whole]
        rfl

section

variable {theme : Theme}

/-- The migrated statements one after the other. -/
def migrateStatements (theme : Theme) (ss : List (Text × Option Char)) : Text :=
  ss.flatMap fun (t, terminator) => migrateStatement theme t terminator ++ terminator.toList

/-- Behind a text without calls of the theme, the statement that it leaves open is migrated together
with what follows. -/
theorem stylesheet_append {t : Text} (callless : Callless t) : ∃ earlier,
    earlier ++ unfinished t = t ∧ ∀ theme u, migrateStylesheet theme (t ++ u) =
      earlier ++ migrateStatements theme
        (resume (unfinished t) (statements (covered (none, 0) t).1 (covered (none, 0) t).2 u)) := by
  obtain ⟨ss, r, texts, whole⟩ := statements_append (none, 0) t
  have last : unfinished t = r := by
    have alone := whole []
    rw [List.append_nil] at alone
    simp [unfinished, alone, statements, resume]
  rw [last]
  refine ⟨_, texts, fun theme u => ?_⟩
  have kept : migrateStatements theme ss = ss.flatMap fun (t, terminator) => t ++ terminator.toList := by
    refine List.flatMap_congr fun s member => ?_
    obtain ⟨before, after, rfl⟩ := List.append_of_mem member
    have inside : s.1 <:+: t := ⟨before.flatMap fun (t, terminator) => t ++ terminator.toList,
      s.2.toList ++ ((after.flatMap fun (t, terminator) => t ++ terminator.toList) ++ r),
      by simp [← texts]⟩
    exact congrArg (· ++ s.2.toList) (migrateStatement_callless (callless.part inside) s.2)
  rw [← kept, migrateStatements, migrateStatements, ← List.flatMap_append, ← whole u]
  rfl

end

/-- A text in which nothing ends is one statement. -/
theorem statements_uncut (p : Option Char × Nat) {t : Text}
    (whole : ∀ inner c later, t = inner ++ c :: later → isTerminator c = true →
      covered p inner ≠ (none, 0)) :
    statements p.1 p.2 t = [(t, none)] := by
  induction t generalizing p with
  | nil => rfl
  | cons c t ih =>
    have later := ih (cover p c) fun inner d behind same => whole (c :: inner) d behind (by rw [same]; rfl)
    rw [statements_inside p c t (whole [] c t rfl), later]
    rfl

end AtomicCss.Migration
