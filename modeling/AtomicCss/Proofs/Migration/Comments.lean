import AtomicCss.Proofs.Migration.Continuation

/-! What a comment in front of a style sheet changes. Comments are read like anything
else, so a comment may leave a quote or a parenthesis open, and it always leaves the
statement open that it ends in. The first statement of the style sheet then goes on
from there. -/
namespace AtomicCss.Migration
open Text Value

def comment (k : Text) : Text := "/*" ++ (k ++ "*/")

/-- What the first statement of a style sheet is. -/
inductive Opening where
  | atRule
  | selector
  | declaration
  deriving DecidableEq, Repr

def openingOf (css : Text) : Opening :=
  match statements none 0 css with
  | [] => .declaration
  | (t, terminator) :: _ =>
    match contextOf t with
    | .atRule => .atRule
    | .declaration => if terminator = some '\x7b' then .selector else .declaration

/-- What a comment in front of a style sheet that begins in this way has to leave behind: no open quote
and no open parenthesis, and a statement that goes on in this way. In front of an at-rule that is
another at-rule, and what follows its name must open nothing for the reader of values. -/
def Inert (k : Text) (opening : Opening) : Prop :=
  covered (none, 0) (comment k) = (none, 0) ∧
    match opening with
    | .selector => contextOf (unfinished (comment k)) = .declaration
    | .declaration => contextOf (unfinished (comment k)) = .declaration ∧ ':' ∉ unfinished (comment k)
    | .atRule => ∃ front value, valuePart? (unfinished (comment k)) = some (.atRule, front, value) ∧
        place (0, .plain) value = (0, .plain)

section

variable {k : Text}

theorem comment_callless (callless : Callless k) : Callless (comment k) := by
  have closing : Callless (k ++ "*/") := callless.append (by decide) (by simp)
  exact (closing.cons (by decide)).cons (by decide)

/-- The open statement ends with the end of the comment. -/
theorem unfinished_comment (k : Text) : ∃ front, unfinished (comment k) = front ++ "*/" := by
  obtain ⟨ss, r, -, whole⟩ := statements_append (none, 0) ("/*" ++ k)
  have closing (p : Option Char × Nat) : statements p.1 p.2 "*/" = [("*/".toList, none)] := by
    refine statements_uncut p fun inner c later parts ends => ?_
    have no_end : "*/".toList.any isTerminator = false := rfl
    exact absurd ends (List.any_eq_false.mp no_end c (by simp [parts]))
  refine ⟨r, ?_⟩
  have last := whole "*/"
  rw [closing] at last
  have parts : comment k = "/*" ++ k ++ "*/" := by simp [comment]
  rw [unfinished, parts, last]
  simp [resume]

theorem unfinished_visible (k : Text) : trimStart (unfinished (comment k)) ≠ [] := by
  obtain ⟨front, ends⟩ := unfinished_comment k
  intro blank
  have slash := List.dropWhile_eq_nil_iff.mp blank '/' (by simp [ends])
  cases slash

/-- The front of a statement ends with a colon, or with the name of an at-rule. -/
theorem valuePart_front {t front value : Text} {context : Context}
    (part : valuePart? t = some (context, front, value)) :
    ∃ before c, front = before ++ [c] ∧ c ≠ '*' ∧ c ≠ '/' := by
  obtain ⟨kind, -⟩ := contextOf_of_valuePart part
  cases context with
  | atRule =>
    obtain ⟨rest, lead⟩ := trimStart_of_atRule kind
    rw [valuePart_atRule lead] at part
    cases part
    rcases List.eq_nil_or_concat (rest.takeWhile isNameChar) with none_left | ⟨name, c, named⟩
    · exact ⟨t.takeWhile isBlank, '@', by rw [none_left], by decide, by decide⟩
    · have letter : isNameChar c = true := List.mem_takeWhile_imp (l := rest) (by simp [named])
      refine ⟨t.takeWhile isBlank ++ '@' :: name, c, by simp [named], ?_, ?_⟩ <;>
        · rintro rfl
          cases letter
  | declaration =>
    rw [valuePart_plain kind] at part
    obtain ⟨parts, -, same⟩ := Option.map_eq_some_iff.mp part
    cases same
    exact ⟨parts.1, ':', rfl, by decide, by decide⟩

/-- The part of the open statement in which calls are replaced ends with the end of the comment. -/
theorem value_ends {front value : Text} {context : Context}
    (part : valuePart? (unfinished (comment k)) = some (context, front, value)) :
    ∃ before, value = before ++ "*/" := by
  obtain ⟨r, ends⟩ := unfinished_comment k
  obtain ⟨before, c, same, noStar, noSlash⟩ := valuePart_front part
  have whole := (contextOf_of_valuePart part).2
  rw [ends, same] at whole
  rcases List.append_eq_append_iff.mp whole with ⟨m, fronts, closing⟩ | ⟨m, -, behind⟩
  · -- Only an empty text fits between the two, since the front does not end in the middle of the end.
    have last : (before ++ [c]).getLast? = some c := by simp
    match m, fronts, closing with
    | [], _, closing => exact ⟨[], closing.symm⟩
    | [_], fronts, closing =>
      cases closing
      simp [fronts] at last
      exact absurd last.symm noStar
    | [_, _], fronts, closing =>
      cases closing
      simp [fronts] at last
      exact absurd last.symm noSlash
  · exact ⟨m, behind⟩

theorem value_begun {front value : Text} {context : Context}
    (part : valuePart? (unfinished (comment k)) = some (context, front, value)) : value ≠ [] := by
  obtain ⟨before, ends⟩ := value_ends part
  simp [ends]

/-- Behind the end of a comment nothing is escaped. -/
theorem place_closed (t : Text) : (place (0, .plain) (t ++ "*/")).2.Settled := by
  have sound : (place (0, .plain) t).2.Sound :=
    place_sound (p := (0, .plain)) trivial t
  have star : advance (place (0, .plain) t) '*' = _ := advance_neutral sound (by decide)
  have slash : (advance (advance (place (0, .plain) t) '*') '/').2.Settled := by
    have stays := Scan.settled_settle sound
    rw [star, advance_neutral stays.1 (by decide)]
    exact Scan.settled_settle stays.1
  rw [place_append]
  exact slash

/-- The comment changes nothing in front of this style sheet. -/
def Passes (theme : Theme) (k css : Text) : Prop :=
  migrateStylesheet theme (comment k ++ css) = comment k ++ migrateStylesheet theme css

theorem passes_iff (callless : Callless k) {theme : Theme} (css : Text) :
    Passes theme k css ↔
      migrateStatements theme (resume (unfinished (comment k))
          (statements (covered (none, 0) (comment k)).1 (covered (none, 0) (comment k)).2 css)) =
        unfinished (comment k) ++ migrateStylesheet theme css := by
  obtain ⟨earlier, whole, split⟩ := stylesheet_append (comment_callless callless)
  unfold Passes
  rw [split]
  conv => lhs; rhs; rw [← whole, List.append_assoc]
  rw [List.append_cancel_left_eq]

/-- Where nothing is left open, it is the first statement that decides. -/
theorem passes_iff_first (callless : Callless k)
    (bare : covered (none, 0) (comment k) = (none, 0)) {theme : Theme} {css t : Text}
    {terminator : Option Char} {rest : List (Text × Option Char)}
    (first : statements none 0 css = (t, terminator) :: rest) :
    Passes theme k css ↔ migrateStatement theme (unfinished (comment k) ++ t) terminator =
      unfinished (comment k) ++ migrateStatement theme t terminator := by
  rw [passes_iff callless, bare, first]
  have alone : migrateStylesheet theme css =
      migrateStatement theme t terminator ++ (terminator.toList ++ migrateStatements theme rest) := by
    rw [migrateStylesheet, first, List.flatMap_cons, List.append_assoc]
    rfl
  rw [alone]
  simp only [resume, migrateStatements, List.flatMap_cons, List.append_assoc]
  rw [← List.append_assoc (unfinished (comment k)), List.append_cancel_right_eq]

theorem unfinished_callless (callless : Callless k) : Callless (unfinished (comment k)) := by
  obtain ⟨earlier, whole, -⟩ := stylesheet_append (comment_callless callless)
  exact (comment_callless callless).part ⟨earlier, [], by simp [whole]⟩

theorem value_callless (callless : Callless k) {context : Context} {front value : Text}
    (part : valuePart? (unfinished (comment k)) = some (context, front, value)) : Callless value := by
  have whole := (contextOf_of_valuePart part).2
  exact (unfinished_callless callless).part ⟨front, [], by simp [whole]⟩

/-- The first statement of a style sheet, by how it begins. -/
theorem first_statement (css : Text) : ∃ t terminator rest,
    statements none 0 css = (t, terminator) :: rest ∧
      match openingOf css with
      | .atRule => contextOf t = .atRule
      | .selector => contextOf t = .declaration ∧ terminator = some '\x7b'
      | .declaration => contextOf t = .declaration ∧ terminator ≠ some '\x7b' := by
  obtain ⟨⟨t, terminator⟩, rest, first⟩ := List.exists_cons_of_ne_nil (statements_ne_nil none 0 css)
  refine ⟨t, terminator, rest, first, ?_⟩
  simp only [openingOf, first]
  cases kind : contextOf t with
  | atRule => rfl
  | declaration =>
    by_cases selects : terminator = some '\x7b'
    · simp [selects]
    · simp [selects]

theorem blank_stops_call {c : Char} (blank : isBlank c = true) : c ∉ "theme(".toList := by
  have visible : ∀ d ∈ "theme(".toList, isBlank d = false := forall_of_all rfl
  intro member
  rw [visible c member] at blank
  cases blank

/-- Behind the name of an at-rule, and where nothing is open for the reader of values, an at-rule is
migrated as it is alone. -/
theorem passes_atRule {theme : Theme} {r front value t : Text} {terminator : Option Char}
    (callless : Callless value) (part : valuePart? r = some (.atRule, front, value))
    (begun : value ≠ []) (home : place (0, .plain) value = (0, .plain)) (kind : contextOf t = .atRule) :
    migrateStatement theme (r ++ t) terminator = r ++ migrateStatement theme t terminator := by
  obtain ⟨rest, lead⟩ := trimStart_of_atRule kind
  obtain ⟨parts, alone⟩ := @atRule_parts theme t rest lead
  have blank (c : Char) (member : c ∈ t.takeWhile isBlank) : isBlank c = true :=
    List.mem_takeWhile_imp member
  have lead_callless : Callless (t.takeWhile isBlank) :=
    callless_of_not_mem fun member => by cases blank 't' member
  have stops (c : Char) (head : (t.takeWhile isBlank).head? = some c) : c ∉ "theme(".toList :=
    blank_stops_call (blank c (List.mem_of_mem_head? head))
  have name_ends (c : Char) (head : (rest.dropWhile isNameChar).head? = some c) : isNameChar c = false := by
    have stops := List.head?_dropWhile_not isNameChar rest
    rw [head] at stops
    exact stops
  have read : place (0, .plain) (value ++ t.takeWhile isBlank) = (0, .plain) := by
    rw [place_append, home]
    exact place_neutral (p := (0, .plain)) Scan.settled_plain fun c member => blank_neutral (blank c member)
  have copied := migrated_append theme .atRule
    (callless.append lead_callless stops)
    (v := '@' :: rest.takeWhile isNameChar ++ rest.dropWhile isNameChar) (by simp) (0, .plain)
  have named := migrated_atName theme .atRule
    (fun c member => List.mem_takeWhile_imp (l := rest) member) name_ends 0
  have whole := (contextOf_of_valuePart part).2
  have resumed : value ++ t = (value ++ t.takeWhile isBlank) ++
      ('@' :: rest.takeWhile isNameChar ++ rest.dropWhile isNameChar) := by
    conv => lhs; rw [parts]
    simp
  rw [migrateStatement_eq, valuePart_append part begun, alone]
  simp only [reduceCtorEq, false_and, if_false]
  rw [resumed, migrateValue_eq, copied, read, named, ← migrateValue_eq, whole]
  simp

theorem passes_of_inert (callless : Callless k) {theme : Theme} {css : Text}
    (inert : Inert k (openingOf css)) : Passes theme k css := by
  obtain ⟨bare, fits⟩ := inert
  obtain ⟨t, terminator, rest, first, kind⟩ := first_statement css
  have visible := unfinished_visible k
  rw [passes_iff_first callless bare first]
  cases opening : openingOf css with
  | selector =>
    rw [opening] at fits kind
    rw [migrateStatement_plain ((contextOf_append visible t).trans fits), migrateStatement_plain kind.1,
      if_pos kind.2, if_pos kind.2]
  | declaration =>
    rw [opening] at fits kind
    rw [migrateStatement_eq, migrateStatement_eq, valuePart_behind (valuePart_eq_none.mpr fits) visible,
      valuePart_plain kind.1]
    cases splitFirst ':' t <;> simp [kind.2]
  | atRule =>
    rw [opening] at fits kind
    obtain ⟨front, value, part, home⟩ := fits
    exact passes_atRule (value_callless callless part) part (value_begun part) home kind

end

end AtomicCss.Migration
