import AtomicCss.Proofs.Migration.Comments

/-! Comments that are not inert. Where a comment leaves something open that the style
sheet behind it does not expect, a call of the theme shows the difference: it is
replaced behind the comment and kept without it, or the other way round. -/
namespace AtomicCss.Migration
open Text Value

/-- The end of the quote that is open. -/
def closing : Scan → Text
  | .quoted q => [q]
  | _ => []

theorem closing_cases {s : Scan} (settled : s.Settled) :
    (s = .plain ∧ closing s = []) ∨ (s = .quoted '"' ∧ closing s = ['"']) ∨
      (s = .quoted '\'' ∧ closing s = ['\'']) := by
  obtain ⟨sound, settled⟩ := settled
  cases s with
  | plain => exact .inl ⟨rfl, rfl⟩
  | escaped => cases settled
  | quotedEscaped q => cases settled
  | quoted q =>
    have quote : Scan.isQuote q = true := sound
    simp only [Scan.isQuote, Bool.or_eq_true, beq_iff_eq] at quote
    rcases quote with rfl | rfl
    · exact .inr (.inl ⟨rfl, rfl⟩)
    · exact .inr (.inr ⟨rfl, rfl⟩)

theorem place_closing {p : Nat × Scan} (settled : p.2.Settled) : (place p (closing p.2)).2 = .plain := by
  obtain ⟨depth, s⟩ := p
  rcases closing_cases settled with ⟨rfl, -⟩ | ⟨rfl, -⟩ | ⟨rfl, -⟩ <;> rfl

/-- What may be closed: one kind of quote, the other kind, or nothing. -/
def closings : List Text := [[], ['"'], ['\'']]

theorem closing_known {s : Scan} (settled : s.Settled) : closing s ∈ closings := by
  rcases closing_cases settled with ⟨-, same⟩ | ⟨-, same⟩ | ⟨-, same⟩ <;> simp [closings, same]

/-- A theme with one token. -/
def redTheme : Theme := Theme.empty.insert "--color-red" "red"

/-- A call that is replaced with this theme. -/
def redCall : Text := "theme(colors.red)"

theorem red_asked : Asks redTheme "colors.red" "--color-red" none :=
  request_eq_some.mp (by decide +kernel)

theorem migrated_redCall (context : Context) (depth : Nat) {y : Text} (callless : Callless y) :
    migrated redTheme context (nest (lex depth .plain (redCall ++ y))) =
      reference context "--color-red" none ++ y := by
  have complete : Complete "colors.red" := by decide
  have called := migrated_call redTheme context complete red_asked depth y
  have kept := migrated_callless redTheme context callless (depth, .plain)
  have parts : redCall ++ y = "theme(".toList ++ ("colors.red".toList ++ ')' :: y) := rfl
  rw [parts, called, kept]

theorem reference_ne (context : Context) (y z : Text) :
    reference context "--color-red" none ++ y ≠ redCall ++ z := by
  intro same
  cases context <;> cases same

/-- A call behind a blank is replaced where no quote is open. -/
theorem value_changed (context : Context) {x y : Text} (callless : Callless x)
    (callless' : Callless y) (bare : (place (0, .plain) x).2 = .plain) :
    migrateValue redTheme context (x ++ ' ' :: (redCall ++ y)) ≠ x ++ ' ' :: (redCall ++ y) := by
  have copied := migrated_append redTheme context callless
    (v := ' ' :: (redCall ++ y)) (by simp) (0, .plain)
  rw [migrateValue_eq, copied, bare, migrated_separator redTheme context rfl rfl,
    migrated_redCall _ _ callless']
  intro same
  exact reference_ne context y y (List.cons.inj (List.append_cancel_left same)).2

/-- A statement in which the part has begun is changed by a call further on, unless it is a selector. -/
theorem resumed_changed {r front value u y : Text} {context : Context}
    (part : valuePart? r = some (context, front, value)) (begun : value ≠ [])
    (callless : Callless (value ++ u)) (callless' : Callless y)
    (bare : (place (0, .plain) (value ++ u)).2 = .plain) {terminator : Option Char}
    (kept : ¬ (context = .declaration ∧ terminator = some '\x7b')) :
    migrateStatement redTheme (r ++ (u ++ ' ' :: (redCall ++ y))) terminator ≠
      r ++ (u ++ ' ' :: (redCall ++ y)) := by
  have whole := (contextOf_of_valuePart part).2
  rw [migrateStatement_eq, valuePart_append part begun]
  simp only [if_neg kept]
  intro same
  have changed := value_changed context callless callless' bare
  rw [List.append_assoc] at changed
  conv at same => rhs; rw [whole, List.append_assoc]
  exact changed (List.append_cancel_left same)

/-- A call between two quotes, or without them, and something in front. -/
def probe (lead quote : Text) : Text := lead ++ (quote ++ ' ' :: (redCall ++ ' ' :: quote))

theorem covered_quote {p : Option Char × Nat} (sound : ∀ q ∈ p.1, q = '"' ∨ q = '\'') (t : Text) :
    ∀ q ∈ (covered p t).1, q = '"' ∨ q = '\'' := by
  induction t generalizing p with
  | nil => exact sound
  | cons c t ih =>
    refine ih (p := cover p c) ?_
    obtain ⟨quote, depth⟩ := p
    cases quote with
    | some q =>
      intro r member
      by_cases ends : c = q
      · simp [cover, ends] at member
      · simp only [cover, ends, if_false, Option.mem_some_iff] at member
        exact member ▸ sound q rfl
    | none =>
      intro r member
      by_cases opens : c = '"' ∨ c = '\''
      · simp only [cover, opens, if_true, Option.mem_some_iff] at member
        exact member ▸ opens
      · simp only [cover, opens, if_false] at member
        split at member
        · cases member
        · split at member <;> cases member

/-- What stands in front of the call in a style sheet that begins in this way. -/
def beginning : Opening → Text
  | .selector => ":"
  | .declaration => ";:"
  | .atRule => "@;:"

/-- By itself this style sheet keeps its call, since the call stands in a selector. -/
theorem probe_alone (opening : Opening) {quote : Text} (known : quote ∈ closings) :
    openingOf (probe (beginning opening) quote ++ "\x7b") = opening ∧
      migrateStylesheet redTheme (probe (beginning opening) quote ++ "\x7b") =
        probe (beginning opening) quote ++ "\x7b" := by
  revert quote
  cases opening <;> decide +kernel

/-- Where a quote or a parenthesis is open in front, it is one statement. -/
theorem probe_uncut (opening : Opening) {quote : Text} (known : quote ∈ closings)
    {p : Option Char × Nat} (sound : ∀ q ∈ p.1, q = '"' ∨ q = '\'') (covers : p ≠ (none, 0)) :
    statements p.1 p.2 (probe (beginning opening) quote ++ "\x7b") =
      [(probe (beginning opening) quote ++ "\x7b", none)] := by
  obtain ⟨quoted, depth⟩ := p
  simp only [closings, List.mem_cons, List.not_mem_nil, or_false] at known
  cases quoted with
  | some q =>
    rcases sound q rfl with rfl | rfl <;> rcases known with rfl | rfl | rfl <;> cases opening <;> rfl
  | none =>
    cases depth with
    | zero => exact absurd rfl covers
    | succ depth => rcases known with rfl | rfl | rfl <;> cases opening <;> rfl

section

variable {k : Text}

theorem value_settled {front value : Text} {context : Context}
    (part : valuePart? (unfinished (comment k)) = some (context, front, value)) :
    (place (0, .plain) value).2.Settled := by
  obtain ⟨before, rfl⟩ := value_ends part
  exact place_closed before

theorem value_append_callless (callless : Callless k) {front value u : Text}
    {context : Context} (part : valuePart? (unfinished (comment k)) = some (context, front, value))
    (silent : 't' ∉ u) : Callless (value ++ u) := by
  obtain ⟨before, ends⟩ := value_ends part
  have front_callless : Callless (before ++ "*") :=
    (value_callless callless part).part ⟨[], "/", by simp [ends]⟩
  have parts : value ++ u = before ++ "*" ++ '/' :: u := by simp [ends]
  rw [parts]
  exact front_callless.append ((callless_of_not_mem silent).cons (by decide)) (by simp)

/-- A part that has begun in the comment takes the call in, once the quote that is open there ends. -/
theorem probe_changed (lead tail : Text) (terminator : Option Char) (callless : Callless k)
    {front value quote : Text} {context : Context}
    (part : valuePart? (unfinished (comment k)) = some (context, front, value))
    (ends : closing (place (0, .plain) value).2 = quote)
    (quiet : ∀ c ∈ lead, Neutral c ∧ c ≠ 't') (tail_callless : Callless tail)
    (kept : ¬ (context = .declaration ∧ terminator = some '\x7b')) :
    migrateStatement redTheme (unfinished (comment k) ++ (probe lead quote ++ tail)) terminator ≠
      unfinished (comment k) ++ (probe lead quote ++ tail) := by
  have settled := value_settled part
  have known := closing_known settled
  rw [ends] at known
  simp only [closings, List.mem_cons, List.not_mem_nil, or_false] at known
  have silent : 't' ∉ lead ++ quote := by
    have lead_silent : 't' ∉ lead := fun member => (quiet 't' member).2 rfl
    rcases known with rfl | rfl | rfl <;> simp [lead_silent]
  have front_callless := value_append_callless callless part silent
  have behind_callless : Callless (' ' :: (quote ++ tail)) := by
    refine Callless.cons ?_ (by decide)
    rcases known with rfl | rfl | rfl
    · exact tail_callless
    · exact tail_callless.cons (by decide)
    · exact tail_callless.cons (by decide)
  have bare : (place (0, .plain) (value ++ (lead ++ quote))).2 = .plain := by
    rw [place_append, place_append, place_neutral settled fun c member => (quiet c member).1, ← ends]
    exact place_closing settled
  have changed := resumed_changed part (value_begun part) front_callless behind_callless bare kept
  simpa [probe] using changed

/-- A comment that leaves a quote or a parenthesis open is inert in front of nothing. -/
theorem disturbs_of_open (callless : Callless k)
    (covers : covered (none, 0) (comment k) ≠ (none, 0)) (opening : Opening) :
    ∃ css, openingOf css = opening ∧ ¬ Passes redTheme k css := by
  have sound := covered_quote (p := (none, 0)) nofun (comment k)
  cases part : valuePart? (unfinished (comment k)) with
  | some parts =>
    obtain ⟨context, front, value⟩ := parts
    have known := closing_known (value_settled part)
    obtain ⟨kind, alone⟩ := probe_alone opening known
    refine ⟨_, kind, fun same => ?_⟩
    rw [passes_iff callless, probe_uncut opening known sound covers, alone] at same
    refine probe_changed (beginning opening) "\x7b" none callless part rfl ?_ (by decide) (by simp)
      (by simpa [resume, migrateStatements] using same)
    cases opening <;> exact forall_of_all rfl
  | none =>
    have known : [] ∈ closings := List.mem_cons_self
    obtain ⟨kind, alone⟩ := probe_alone opening known
    refine ⟨_, kind, fun same => ?_⟩
    rw [passes_iff callless, probe_uncut opening known sound covers, alone] at same
    obtain ⟨before, cut⟩ : ∃ before, splitFirst ':' (probe (beginning opening) [] ++ "\x7b") =
        some (before, ' ' :: (redCall ++ " \x7b")) := by
      cases opening
      · exact ⟨"@;", rfl⟩
      · exact ⟨[], rfl⟩
      · exact ⟨";", rfl⟩
    have changed := value_changed .declaration (x := []) (y := " \x7b") (by decide)
      (by decide) rfl
    have whole := (splitFirst_eq_some.mp cut).1
    simp only [resume, migrateStatements, List.flatMap_cons, List.flatMap_nil] at same
    rw [migrateStatement_eq, valuePart_behind part (unfinished_visible k), cut] at same
    conv at same => rhs; rw [whole]
    exact changed (by simpa using same)

/-- In front of a statement that keeps its call, a part that has begun takes the call in. -/
theorem disturbs_of_part (callless : Callless k)
    (bare : covered (none, 0) (comment k) = (none, 0)) {front value : Text} {context : Context}
    (part : valuePart? (unfinished (comment k)) = some (context, front, value)) {opening : Opening}
    (kind : opening = .selector ∧ context = .atRule ∨ opening = .declaration) :
    ∃ css, openingOf css = opening ∧ ¬ Passes redTheme k css := by
  have known := closing_known (value_settled part)
  generalize ends : closing (place (0, .plain) value).2 = quote at known
  have first (quote : Text) (known : quote ∈ closings) : ∀ c ∈ ['\x7b', ';'],
      statements none 0 (probe [] quote ++ [c]) = [(probe [] quote, some c), ([], none)] ∧
        migrateStatement redTheme (probe [] quote) (some c) = probe [] quote ∧
        contextOf (probe [] quote) = .declaration := by
    refine forall_of_all ?_
    revert quote
    decide +kernel
  have changed (terminator : Option Char) :=
    probe_changed [] [] terminator callless part ends (by simp) (by decide)
  simp only [List.append_nil] at changed
  have disturbs (c : Char) (ends : c ∈ ['\x7b', ';'])
      (kept : ¬ (context = .declaration ∧ some c = some '\x7b')) :
      ¬ Passes redTheme k (probe [] quote ++ [c]) := by
    intro same
    obtain ⟨split, alone, -⟩ := first quote known c ends
    rw [passes_iff_first callless bare split, alone] at same
    exact changed (some c) kept same
  rcases kind with ⟨rfl, rfl⟩ | rfl
  · obtain ⟨split, -, plain⟩ := first quote known '\x7b' (by simp)
    exact ⟨_, by simp [openingOf, split, plain], disturbs '\x7b' (by simp) (by simp)⟩
  · obtain ⟨split, -, plain⟩ := first quote known ';' (by simp)
    exact ⟨_, by simp [openingOf, split, plain], disturbs ';' (by simp) (by simp)⟩

/-- A quote that is open for the reader of values ends at the next one, and the call behind it is
no longer quoted. -/
theorem disturbs_of_quote (callless : Callless k)
    (bare : covered (none, 0) (comment k) = (none, 0)) {front value : Text}
    (part : valuePart? (unfinished (comment k)) = some (.atRule, front, value)) {q : Char}
    (known : q ∈ ['"', '\'']) (quoted : (place (0, .plain) value).2 = .quoted q) :
    ∃ css, openingOf css = .atRule ∧ ¬ Passes redTheme k css := by
  have first : ∀ q ∈ ['"', '\''], openingOf (probe "@media " [q]) = .atRule ∧
      statements none 0 (probe "@media " [q]) = [(probe "@media " [q], none)] ∧
      migrateStatement redTheme (probe "@media " [q]) none = probe "@media " [q] :=
    forall_of_all (by decide +kernel)
  obtain ⟨kind, split, alone⟩ := first q known
  refine ⟨probe "@media " [q], kind, fun same => ?_⟩
  rw [passes_iff_first callless bare split, alone] at same
  have ends : closing (place (0, .plain) value).2 = [q] := by
    rw [quoted]
    rfl
  have changed := probe_changed "@media " [] none callless part ends (forall_of_all rfl) (by decide)
    (by simp)
  simp only [List.append_nil] at changed
  exact changed same

/-- A call that is open for the reader of values ends at the next parenthesis, which by itself would be a
part of the name behind it. -/
theorem disturbs_of_call (callless : Callless k)
    (bare : covered (none, 0) (comment k) = (none, 0)) {front value : Text}
    (part : valuePart? (unfinished (comment k)) = some (.atRule, front, value)) {depth : Nat}
    (inside : place (0, .plain) value = (depth + 1, .plain)) :
    ∃ css, openingOf css = .atRule ∧ ¬ Passes redTheme k css := by
  have first : statements none 0 ("@media )".toList ++ redCall) =
      [("@media )".toList ++ redCall, none)] := by decide +kernel
  have alone : migrateStatement redTheme ("@media )".toList ++ redCall) none =
      "@media )".toList ++ redCall := by decide +kernel
  refine ⟨"@media )".toList ++ redCall, by decide +kernel, fun same => ?_⟩
  rw [passes_iff_first callless bare first, alone, migrateStatement_eq,
    valuePart_append part (value_begun part)] at same
  have read : place (0, .plain) (value ++ "@media ") = (depth + 1, .plain) := by
    rw [place_append, inside]
    rfl
  have copied := migrated_append redTheme .atRule
    (value_append_callless callless part (u := "@media ") (by decide))
    (v := ')' :: (redCall ++ [])) (by simp) (0, .plain)
  rw [read, migrated_closing, migrated_redCall _ _ (by decide), ← migrateValue_eq] at copied
  have whole := (contextOf_of_valuePart part).2
  have parts : value ++ ("@media )".toList ++ redCall) = value ++ "@media " ++ ')' :: (redCall ++ []) := by
    simp
  simp only [reduceCtorEq, false_and, if_false] at same
  rw [parts, copied, whole, List.append_assoc front, parts] at same
  have called := List.append_cancel_left (List.append_cancel_left same)
  exact reference_ne .atRule [] [] (List.cons.inj called).2

/-- In front of an at-rule the comment must not leave a statement of another kind open, or a call or a
quote for the reader of values. -/
theorem disturbs_atRule (callless : Callless k)
    (bare : covered (none, 0) (comment k) = (none, 0)) (unfit : ¬ Inert k .atRule) :
    ∃ css, openingOf css = .atRule ∧ ¬ Passes redTheme k css := by
  cases kind : contextOf (unfinished (comment k)) with
  | declaration =>
    have first : statements none 0 ("@media theme(colors.red)\x7b".toList) =
        [("@media theme(colors.red)".toList, some '\x7b'), ([], none)] := by decide +kernel
    refine ⟨"@media theme(colors.red)\x7b", by decide +kernel, fun same => ?_⟩
    rw [passes_iff_first callless bare first,
      migrateStatement_plain ((contextOf_append (unfinished_visible k) _).trans kind), if_pos rfl] at same
    have replaced : migrateStatement redTheme "@media theme(colors.red)" (some '\x7b') ≠
        "@media theme(colors.red)".toList := by decide +kernel
    exact replaced (List.append_cancel_left same).symm
  | atRule =>
    obtain ⟨rest, lead⟩ := trimStart_of_atRule kind
    have part := valuePart_atRule lead
    have settled := value_settled part
    generalize rest.dropWhile isNameChar = value at part settled
    rcases closing_cases settled with ⟨plain, -⟩ | ⟨quoted, -⟩ | ⟨quoted, -⟩
    · cases inside : (place (0, .plain) value).1 with
      | zero => exact absurd ⟨bare, _, value, part, Prod.ext inside plain⟩ unfit
      | succ depth => exact disturbs_of_call callless bare part (Prod.ext inside plain)
    · exact disturbs_of_quote callless bare part (by simp) quoted
    · exact disturbs_of_quote callless bare part (by simp) quoted

/-- A comment is inert in front of all style sheets that begin in one way exactly if it leaves nothing open
but a statement that goes on in this way. No comment is inert in front of all style sheets. -/
theorem comment_inert_iff (callless : Callless k) :
    (∀ opening, (∀ theme css, openingOf css = opening →
      migrateStylesheet theme (comment k ++ css) = comment k ++ migrateStylesheet theme css) ↔
        Inert k opening) ∧
    ∃ opening, ¬ Inert k opening := by
  refine ⟨fun opening => ⟨fun passes => ?_, fun inert theme css kind => ?_⟩, ?_⟩
  · by_contra unfit
    obtain ⟨css, kind, disturbed⟩ : ∃ css, openingOf css = opening ∧ ¬ Passes redTheme k css := by
      by_cases bare : covered (none, 0) (comment k) = (none, 0)
      · cases opening with
        | atRule => exact disturbs_atRule callless bare unfit
        | selector =>
          cases kind : contextOf (unfinished (comment k)) with
          | declaration => exact absurd ⟨bare, kind⟩ unfit
          | atRule =>
            obtain ⟨rest, lead⟩ := trimStart_of_atRule kind
            exact disturbs_of_part callless bare (valuePart_atRule lead) (.inl ⟨rfl, rfl⟩)
        | declaration =>
          cases part : valuePart? (unfinished (comment k)) with
          | none => exact absurd ⟨bare, valuePart_eq_none.mp part⟩ unfit
          | some parts => exact disturbs_of_part callless bare part (.inr rfl)
      · exact disturbs_of_open callless bare opening
    exact disturbed (passes redTheme css kind)
  · subst kind
    exact passes_of_inert callless inert
  · by_cases plain : contextOf (unfinished (comment k)) = .declaration
    · refine ⟨.atRule, ?_⟩
      rintro ⟨-, front, value, part, -⟩
      rw [(contextOf_of_valuePart part).1] at plain
      cases plain
    · exact ⟨.selector, fun inert => plain inert.2⟩

end

/-- A comment without a colon, whose parentheses match, in front of a declaration. -/
theorem note_inert : Inert " (see 3.2) " .declaration ∧
    migrateStylesheet redTheme (comment " (see 3.2) " ++ "color: theme(colors.red);") =
      comment " (see 3.2) " ++ migrateStylesheet redTheme "color: theme(colors.red);" := by
  have inert : Inert " (see 3.2) " .declaration :=
    ⟨by decide +kernel, by decide +kernel, by decide +kernel⟩
  have callless : Callless " (see 3.2) " := by decide +kernel
  have passes := ((comment_inert_iff callless).1 .declaration).mpr inert
  have kind : openingOf "color: theme(colors.red);" = .declaration := by decide +kernel
  exact ⟨inert, passes redTheme "color: theme(colors.red);" kind⟩

/-- A colon in a comment makes the at-rule behind it the value of a declaration. -/
theorem colon_disturbs_import : Callless " x: " ∧
    migrateStylesheet redTheme (comment " x: " ++ "@import theme(colors.red);") =
      "/* x: */@import var(--color-red);".toList ∧
    comment " x: " ++ migrateStylesheet redTheme "@import theme(colors.red);" =
      "/* x: */@import theme(--color-red);".toList ∧
    ¬ ∀ theme k css, Callless k →
      migrateStylesheet theme (comment k ++ css) = comment k ++ migrateStylesheet theme css := by
  have callless : Callless " x: " := by decide +kernel
  have behind : migrateStylesheet redTheme (comment " x: " ++ "@import theme(colors.red);") =
      "/* x: */@import var(--color-red);".toList := by decide +kernel
  have alone : comment " x: " ++ migrateStylesheet redTheme "@import theme(colors.red);" =
      "/* x: */@import theme(--color-red);".toList := by decide +kernel
  refine ⟨callless, behind, alone, fun inert => ?_⟩
  have same := inert redTheme " x: " "@import theme(colors.red);" callless
  rw [behind, alone] at same
  exact absurd same (by decide +kernel)

end AtomicCss.Migration
