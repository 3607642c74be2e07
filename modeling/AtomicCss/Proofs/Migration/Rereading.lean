import AtomicCss.Proofs.Migration.Continuation
import AtomicCss.Proofs.Value.Exchange
import AtomicCss.Proofs.Value.Marks

/-! A migrated value as it is read again. What is written in place of a call has the
parentheses and quotes of the arguments that it replaces, so it is again one call, and all
else is read as before. That call asks for nothing, since the name of a token begins with
two dashes. So migrating a value a second time changes nothing. -/
namespace AtomicCss.Migration
open Text Value

mutual

def outermostNode : Node → List (List Node)
  | .word _ => []
  | .separator _ => []
  | .call name args => if name = "theme" then [args] else outermost args

/-- The arguments of each call of the theme that stands in no other one. -/
def outermost : List Node → List (List Node)
  | [] => []
  | n :: ns => outermostNode n ++ outermost ns

end

/-- What a reference holds between its parentheses. -/
def referred (token : Text) : Option Text → Text
  | some modifier => token ++ " / ".toList ++ modifier
  | none => token

section

variable {theme : Theme}

theorem marks_pathParts (path : Text) : marks (pathParts path).flatten = marks path := by
  have dots (t : Text) : marks (t.filter fun c => !(c == '.')) = marks t := by
    rw [marks, marks, List.filter_filter]
    refine List.filter_congr fun c _ => ?_
    by_cases dot : c = '.'
    · subst dot
      rfl
    · simp [dot]
  rw [pathParts, List.flatten_filter_not_isEmpty, fields, splitWhere_flatten, dots,
    marks_replace (by decide) rfl, marks_replace (by decide) (by decide)]

theorem marks_dashed (parts : List Text) :
    marks ((parts.filter (· != Theme.defaultKey)).flatMap fun p => '-' :: p) = marks parts.flatten := by
  induction parts with
  | nil => rfl
  | cons p parts ih =>
    rw [List.flatten_cons, marks_append, ← ih]
    by_cases default : p = Theme.defaultKey
    · have unmarked : marks p = [] := by
        rw [default]
        rfl
      rw [List.filter_cons_of_neg (by simp [default]), unmarked, List.nil_append]
    · rw [List.filter_cons_of_pos (by simpa using default), List.flatMap_cons, marks_append]
      rfl

/-- The first parts of paths and the namespaces have no parentheses or quotes, and a namespace begins with two dashes. -/
theorem pathRoots_plain : ∀ entry ∈ pathRoots,
    marks entry.1 = [] ∧ marks entry.2 = [] ∧ ['-', '-'] <+: entry.2 := by decide +kernel

/-- A token has the parentheses and quotes of the path that names it. -/
theorem marks_token {path token : Text} (names : Names theme path token) : marks token = marks path := by
  obtain ⟨-, root, parts, ns, parted, known, -, rfl⟩ := names
  obtain ⟨first, second, -⟩ := pathRoots_plain _ known
  rw [marks_append, second, marks_dashed, ← marks_pathParts path, parted, List.flatten_cons, marks_append, first]

theorem marks_referred {arguments token : Text} {modifier : Option Text}
    (asked : Asks theme arguments token modifier) : marks (referred token modifier) = marks arguments := by
  cases asked with
  | token named => rw [referred, marks_token named, marks_trim]
  | @modified path behind _ _ cut _ _ named =>
    have whole := congrArg marks cut
    have slash : marks ('/' :: behind) = marks behind := rfl
    have spaced : marks " / ".toList = [] := rfl
    rw [marks_trim, marks_append, slash] at whole
    rw [referred, marks_append, marks_append, spaced, marks_token named, marks_trim, marks_ink, whole,
      List.append_nil]

/-- What is written for a call is complete like its arguments, as long as they escape nothing. -/
theorem complete_referred {arguments token : Text} {modifier : Option Text}
    (complete : Complete arguments) (unescaped : '\\' ∉ arguments)
    (asked : Asks theme arguments token modifier) : Complete (referred token modifier) :=
  complete_of_marks (marks_referred asked) unescaped complete

theorem dashed_token {path token : Text} (names : Names theme path token) : ['-', '-'] <+: token := by
  obtain ⟨-, root, parts, ns, -, known, -, rfl⟩ := names
  exact (pathRoots_plain _ known).2.2.trans (List.prefix_append ..)

theorem dashed_trim {t : Text} (dashed : ['-', '-'] <+: t) : ['-', '-'] <+: trim t := by
  obtain ⟨rest, rfl⟩ := dashed
  obtain ⟨before, behind, whole, blank, blank'⟩ := trim_parts (['-', '-'] ++ rest)
  generalize trim (['-', '-'] ++ rest) = u at whole ⊢
  have visible : isBlank '-' = false := rfl
  have inside {rest : Text} (same : '-' :: rest = behind) : False := by
    have blank_dash := blank' '-' (by simp [← same])
    rw [blank_dash] at visible
    cases visible
  cases before with
  | cons c before =>
    obtain ⟨rfl, -⟩ := List.cons.inj whole
    rw [blank '-' List.mem_cons_self] at visible
    cases visible
  | nil =>
    match u, whole with
    | [], whole => exact (inside whole).elim
    | [c], whole => exact (inside (List.cons.inj whole).2).elim
    | c :: d :: u, whole =>
      obtain ⟨rfl, rfl, -⟩ : '-' = c ∧ '-' = d ∧ rest = u ++ behind := by simpa using whole
      exact ⟨u, rfl⟩

/-- The name of a token asks for nothing, with or without a modifier. -/
theorem not_asks_of_dashed {arguments token : Text} {modifier : Option Text}
    (dashed : ['-', '-'] <+: arguments) : ¬ Asks theme arguments token modifier := by
  have dashed := dashed_trim dashed
  intro asked
  cases asked with
  | token named => exact named.1 dashed
  | @modified path behind _ _ cut _ _ named =>
    refine named.1 (dashed_trim ?_)
    rw [cut] at dashed
    match path, dashed with
    | [], dashed => simp at dashed
    | [c], dashed => simp at dashed
    | c :: d :: path, dashed => simpa using dashed

theorem dashed_referred {arguments token : Text} {modifier : Option Text}
    (asked : Asks theme arguments token modifier) : ['-', '-'] <+: referred token modifier := by
  cases asked with
  | token named => exact dashed_token named
  | modified _ _ _ _ named =>
    rw [referred, List.append_assoc]
    exact (dashed_token named).trans (List.prefix_append ..)

/-- A token that is asked for is in the theme. -/
theorem Asks.contains {arguments token : Text} {modifier : Option Text}
    (asked : Asks theme arguments token modifier) : theme.contains token = true := by
  rcases asked with ⟨-, _, _, _, -, -, held, -⟩ | ⟨-, -, -, -, ⟨-, _, _, _, -, -, held, -⟩⟩
  · exact held
  · exact held

/-- What a reference is called. -/
def referenceName : Context → Option Text → Text
  | .declaration, none => "var"
  | _, _ => "theme"

theorem referenceName_ne_nil (context : Context) (modifier : Option Text) :
    referenceName context modifier ≠ [] := by
  fun_cases referenceName context modifier <;> decide

theorem referenceName_letters (context : Context) (modifier : Option Text) :
    ∀ c ∈ referenceName context modifier, isWordChar c = true := by
  fun_cases referenceName context modifier <;> exact forall_of_all rfl

theorem reference_eq (context : Context) (token : Text) (modifier : Option Text) :
    reference context token modifier =
      referenceName context modifier ++ '(' :: (referred token modifier ++ [')']) := by
  cases modifier with
  | some modifier => cases context <;> rfl
  | none => cases context <;> rfl

/-- What stands for a request when it is read again. -/
def rereadRequest (context : Context) : Text × Option Text → Node
  | (token, modifier) => .call (referenceName context modifier) (parse (referred token modifier))

mutual

def rereadNode (theme : Theme) (context : Context) : Node → Node
  | .word t => .word t
  | .separator t => .separator t
  | .call name args =>
    if name = "theme" then
      ((request? theme (render args)).map (rereadRequest context)).getD (.call name args)
    else .call name (reread theme context args)

/-- The siblings that are read from what the migration of these writes. -/
def reread (theme : Theme) (context : Context) : List Node → List Node
  | [] => []
  | n :: ns => rereadNode theme context n :: reread theme context ns

end

/-- What is written in place of a call asks for nothing. -/
theorem request_referred {arguments token : Text} {modifier : Option Text}
    (asked : Asks theme arguments token modifier) : request? theme (referred token modifier) = none := by
  cases request : request? theme (referred token modifier) with
  | none => rfl
  | some found => exact absurd (request_eq_some.mp request) (not_asks_of_dashed (dashed_referred asked))

theorem renderNode_rereadRequest (context : Context) (request : Text × Option Text) :
    renderNode (rereadRequest context request) = renderNode (requestNode context request) := by
  obtain ⟨token, modifier⟩ := request
  rw [rereadRequest, renderNode_request, reference_eq, renderNode_call, render_parse]

theorem render_reread (context : Context) (ns : List Node) :
    render (reread theme context ns) = render (replaceCalls theme context ns) := by
  induction ns using nodes_induction with
  | nil => rw [reread, replaceCalls]
  | cons n ns inside later =>
    rw [reread, replaceCalls, render_cons, render_cons, later]
    congr 1
    cases n with
    | word t => rw [rereadNode, replaceCallsNode]
    | separator t => rw [rereadNode, replaceCallsNode]
    | call name args =>
      rw [rereadNode, replaceCallsNode]
      split
      · rw [themeNode?]
        cases request? theme (render args) with
        | none => rfl
        | some found => exact renderNode_rereadRequest context found
      · rw [renderNode_call, renderNode_call, inside name args rfl]

/-- The calls that are replaced are exchanged for complete ones. -/
theorem exchanged_reread (context : Context) {ns : List Node}
    (complete : ∀ args ∈ outermost ns, ∀ token modifier, Asks theme (render args) token modifier →
      Complete (referred token modifier)) : Exchanged "theme".toList ns (reread theme context ns) := by
  induction ns using nodes_induction with
  | nil =>
    rw [reread]
    exact .nil
  | cons n ns inside later =>
    rw [outermost, List.forall_mem_append] at complete
    have kept := later complete.2
    rw [reread]
    cases n with
    | word t =>
      rw [rereadNode]
      exact .leaf (word_ne_call t) kept
    | separator t =>
      rw [rereadNode]
      exact .leaf (separator_ne_call t) kept
    | call name args =>
      rw [rereadNode]
      rw [outermostNode] at complete
      by_cases called : name = "theme".toList
      · subst called
        rw [if_pos rfl] at complete ⊢
        cases request : request? theme (render args) with
        | none => exact .inside _ (.refl args) kept
        | some found =>
          obtain ⟨token, modifier⟩ := found
          exact .other (referenceName_ne_nil context modifier) (referenceName_letters context modifier)
            (complete.1 args (by simp) token modifier (request_eq_some.mp request)) kept
      · rw [if_neg called] at complete ⊢
        exact .inside name (inside name args rfl complete.1) kept

theorem infix_outermost {ns args : List Node} (member : args ∈ outermost ns) : render args <:+: render ns := by
  induction ns using nodes_induction with
  | nil =>
    rw [outermost] at member
    cases member
  | cons n ns inside later =>
    rw [render_cons]
    rw [outermost] at member
    rcases List.mem_append.mp member with here | behind
    · refine List.IsInfix.trans ?_ (List.prefix_append ..).isInfix
      cases n with
      | word t =>
        rw [outermostNode] at here
        cases here
      | separator t =>
        rw [outermostNode] at here
        cases here
      | call name args' =>
        have held : render args' <:+: renderNode (.call name args') :=
          ⟨name ++ ['('], [')'], by simp⟩
        rw [outermostNode] at here
        split at here
        · obtain rfl := List.mem_singleton.mp here
          exact held
        · exact (inside name args' rfl here).trans held
    · exact (later behind).trans (List.suffix_append ..).isInfix

theorem complete_outermost {ns : List Node} (formed : Formed ns) :
    ∀ args ∈ outermost ns, Complete (render args) := by
  induction formed with
  | nil => simp [outermost]
  | @leaf n ns leaf _ _ later =>
    have none_there : outermostNode n = [] := by
      cases n with
      | call name args => exact absurd rfl (leaf name args)
      | _ => rw [outermostNode]
    rw [outermost, none_there]
    exact later
  | @call name args ns complete _ _ inside later =>
    rw [outermost, outermostNode, List.forall_mem_append]
    refine ⟨?_, later⟩
    split
    · simpa using complete
    · exact inside

/-- The tree of a migrated value, where no replaced call has an escape among its arguments. -/
theorem parse_migrateValue (context : Context) {t : Text}
    (unescaped : ∀ args ∈ outermost (parse t), '\\' ∈ render args → request? theme (render args) = none) :
    parse (migrateValue theme context t) = reread theme context (parse t) := by
  have whole := complete_outermost (formed_parse t)
  have complete : ∀ args ∈ outermost (parse t), ∀ token modifier, Asks theme (render args) token modifier →
      Complete (referred token modifier) := by
    intro args member token modifier asked
    refine complete_referred (whole args member) (fun escaped => ?_) asked
    have kept := unescaped args member escaped
    rw [request_eq_some.mpr asked] at kept
    cases kept
  have letters : ∀ c ∈ "theme".toList, isWordChar c = true := forall_of_all rfl
  have read := parse_exchanged letters (by decide) (exchanged_reread context complete)
  rwa [render_reread, ← migrateValue_eq_replaceCalls] at read

/-- What a reference holds has no call of the theme, as long as the token has no parenthesis. -/
theorem replaceCalls_rereadRequest (context : Context) {arguments token : Text} {modifier : Option Text}
    (asked : Asks theme arguments token modifier) (plain : '(' ∉ token) :
    renderNode (replaceCallsNode theme context (rereadRequest context (token, modifier))) =
      renderNode (rereadRequest context (token, modifier)) := by
  rw [rereadRequest, replaceCallsNode]
  split
  · rw [themeNode?, render_parse, request_referred asked]
    rfl
  · rename_i other
    have bare : referred token modifier = token := by
      cases modifier with
      | none => rfl
      | some modifier => cases context <;> exact absurd rfl other
    have callless : Callless token := fun calls => plain (calls.subset (by simp))
    have kept : migrateValue theme context token = token := migrateValue_callless callless
    rw [migrateValue_eq_replaceCalls] at kept
    rw [bare, renderNode_call, renderNode_call, kept, render_parse]

/-- In what is read again there is nothing left to replace. -/
theorem replaceCalls_reread (context : Context) (ns : List Node)
    (plain : ∀ token, theme.contains token = true → '(' ∉ token) :
    render (replaceCalls theme context (reread theme context ns)) = render (reread theme context ns) := by
  induction ns using nodes_induction with
  | nil => rw [reread, replaceCalls]
  | cons n ns inside later =>
    rw [reread, replaceCalls, render_cons, render_cons, later]
    congr 1
    cases n with
    | word t => rw [rereadNode, replaceCallsNode]
    | separator t => rw [rereadNode, replaceCallsNode]
    | call name args =>
      rw [rereadNode]
      by_cases called : name = "theme".toList
      · rw [if_pos called]
        cases request : request? theme (render args) with
        | none =>
          rw [Option.map_none, Option.getD_none, replaceCallsNode, if_pos called, themeNode?, request]
          rfl
        | some found =>
          obtain ⟨token, modifier⟩ := found
          have asked := request_eq_some.mp request
          exact replaceCalls_rereadRequest context asked (plain token asked.contains)
      · rw [if_neg called, replaceCallsNode, if_neg called, renderNode_call, renderNode_call,
          inside name args rfl]

/-- Migrating a value again changes nothing, if the value escapes nothing and no token has a
parenthesis in its name. -/
theorem migrateValue_migrateValue (theme : Theme) (context : Context) (t : Text) (unescaped : '\\' ∉ t)
    (plain : ∀ token, theme.contains token = true → '(' ∉ token) :
    migrateValue theme context (migrateValue theme context t) = migrateValue theme context t := by
  have inside : ∀ args ∈ outermost (parse t), '\\' ∈ render args → request? theme (render args) = none := by
    intro args member escaped
    have part := infix_outermost member
    rw [render_parse] at part
    exact absurd (part.subset escaped) unescaped
  have read : parse (migrateValue theme context t) = reread theme context (parse t) := parse_migrateValue context inside
  rw [migrateValue_eq_replaceCalls, read, replaceCalls_reread context _ plain, render_reread,
    migrateValue_eq_replaceCalls]

end

/-- A theme with the one token `--color-red`. -/
def plainTheme : Theme := Theme.empty.insert "--color-red" "red"

/-- A sum in which one call keeps a modifier and the other becomes a reference. -/
theorem migrated_sum_kept :
    '\\' ∉ "calc(theme(colors.red / 50%) + theme(colors.red))".toList ∧
    (∀ token, plainTheme.contains token = true → '(' ∉ token) ∧
    migrateValue plainTheme .declaration "calc(theme(colors.red / 50%) + theme(colors.red))" =
      "calc(theme(--color-red / 50%) + var(--color-red))" ∧
    migrateValue plainTheme .declaration "calc(theme(--color-red / 50%) + var(--color-red))" =
      "calc(theme(--color-red / 50%) + var(--color-red))" := by
  have unescaped : '\\' ∉ "calc(theme(colors.red / 50%) + theme(colors.red))".toList := by decide
  have plain : ∀ token, plainTheme.contains token = true → '(' ∉ token := by
    intro token held
    have inStep : Theme.InStep plainTheme := Theme.inStep_empty.insert "--color-red" "red"
    obtain ⟨value, member⟩ := inStep.contains_iff.mp held
    obtain ⟨rfl, -⟩ := Prod.mk.inj (List.mem_singleton.mp member)
    decide
  have first : migrateValue plainTheme .declaration "calc(theme(colors.red / 50%) + theme(colors.red))" =
      "calc(theme(--color-red / 50%) + var(--color-red))" := by
    rw [migrateValue_eq_replaceCalls]
    decide +kernel
  have second := migrateValue_migrateValue plainTheme .declaration _ unescaped plain
  rw [first] at second
  exact ⟨unescaped, plain, first, second⟩

end AtomicCss.Migration
