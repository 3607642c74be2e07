import AtomicCss.Proofs.Arbitrary.Lossless

/-! Texts that are read as they stand: without a backslash, and without a call of
`url` or of a mathematical function. Canonical spacing makes no such call out of
other text, because it leaves the spaces between a name and what is in front of
it, and between the letters of a name. -/
namespace AtomicCss.Arbitrary
open Text Value

/-- The functions whose arguments are not read like other text. -/
def readFunctions : List Text := "url" :: mathFunctions

/-- No backslash stands in the text, and no opening parenthesis behind the name of
such a function, in upper or lower case. -/
structure Inert (t : Text) : Prop where
  plain : '\\' ∉ t
  uncalled : ∀ name ∈ readFunctions, ¬ (name ++ ['(']) <:+: lower t

instance (t : Text) : Decidable (Inert t) :=
  decidable_of_iff ('\\' ∉ t ∧ ∀ name ∈ readFunctions, ¬ (name ++ ['(']) <:+: lower t)
    ⟨fun ⟨plain, uncalled⟩ => ⟨plain, uncalled⟩, fun inert => ⟨inert.plain, inert.uncalled⟩⟩

theorem Inert.part {t u : Text} (inert : Inert t) (part : u <:+: t) : Inert u :=
  ⟨fun member => inert.plain (part.subset member),
    fun name known call => inert.uncalled name known (call.trans (part.map Char.toLower))⟩

theorem letters_of_readFunctions : ∀ name ∈ readFunctions, ∀ c ∈ name, c.isAlphanum = true := by
  simp only [← List.all_eq_true]
  decide

theorem Inert.urlless {t : Text} (inert : Inert t) : Urlless t :=
  ⟨inert.plain, inert.uncalled "url" (.head mathFunctions)⟩

section

variable {c : Char} (letter : c.isAlphanum = true)

include letter

theorem isSeparator_letter : isSeparator c = false := by
  have visible := visible_of_isNameChar (c := c) (by simp [isNameChar, letter])
  have comma : c ≠ ',' := by rintro rfl; cases letter
  have colon : c ≠ ':' := by rintro rfl; cases letter
  simp [isSeparator, visible, comma, colon]

theorem Ahead.next_letter (run : Text) (s : Scan) : Ahead.next run s c = .other := by
  have opens : c ≠ '(' := by rintro rfl; cases letter
  simp [Ahead.next, opens, isOperatorChar_letter letter]

end

/-- Nothing goes away in front of such a character, unless something in front of it
takes it away. -/
theorem head_of_squeeze {s : Scan} {t u : Text} {c : Char} (other : isSeparator c = false)
    (operator : isOperatorChar c = false) (closing : c ≠ ')')
    (same : squeeze .other [] s t = c :: u) :
    ∃ rest, t = c :: rest ∧ u = squeeze (.next [] s c) [] (s.next c) rest := by
  by_cases plain : s = .plain
  · subst plain
    rcases run_cases t with alone | ⟨run, d, rest, rfl, separators, solid⟩
    · rw [squeeze_last alone] at same
      split at same
      · cases same
      · subst same
        rw [alone c (by simp)] at other
        cases other
    · rw [squeeze_run separators solid] at same
      cases run with
      | nil =>
        simp only [List.nil_append, ite_self] at same
        obtain ⟨rfl, rfl⟩ := List.cons.inj same
        exact ⟨rest, rfl, rfl⟩
      | cons e run =>
        split at same
        · rename_i dropped
          obtain ⟨rfl, -⟩ := List.cons.inj same
          simp [isRunDropped, atEdge, closing, leadsSpaced_cons, operator] at dropped
        · obtain ⟨rfl, -⟩ := List.cons.inj same
          rw [separators e (by simp)] at other
          cases other
  · cases t with
    | nil => cases same
    | cons d rest =>
      have next : Ahead.next [] s d = .other := by simp [Ahead.next, live_hidden plain]
      rw [squeeze_hidden plain] at same
      obtain ⟨rfl, rfl⟩ := List.cons.inj same
      exact ⟨rest, rfl, by rw [next]⟩

theorem prefix_of_squeeze {w : Text} (letters : ∀ c ∈ w, c.isAlphanum = true) {s : Scan} {t : Text}
    (lead : w ++ ['('] <+: squeeze .other [] s t) : w ++ ['('] <+: t := by
  induction w generalizing s t with
  | nil =>
    obtain ⟨behind, same⟩ := lead
    obtain ⟨rest, rfl, -⟩ := head_of_squeeze (by rfl) rfl (by decide) same.symm
    exact ⟨rest, rfl⟩
  | cons c w ih =>
    have letter := letters c (by simp)
    obtain ⟨behind, same⟩ := lead
    obtain ⟨rest, rfl, tail⟩ := head_of_squeeze (isSeparator_letter letter)
      (isOperatorChar_letter letter) (by rintro rfl; cases letter) same.symm
    rw [Ahead.next_letter letter] at tail
    exact List.cons_prefix_cons.mpr ⟨rfl, ih (fun d member => letters d (by simp [member])) ⟨behind, tail⟩⟩

/-- Canonical spacing makes no call. -/
theorem infix_of_squeeze {q : Text} (call : CallText q) {ahead : Ahead} {s : Scan} {t : Text}
    (part : q <:+: squeeze ahead [] s t) : q <:+: t := by
  obtain ⟨w, rfl, letters⟩ := call
  have visible {run l : Text} (separators : IsRun run) (part : w ++ ['('] <:+: run ++ l) :
      w ++ ['('] <:+: l := by
    refine infix_behind (fun d member head => ?_) part
    have separates := separators d member
    cases w with
    | nil =>
      obtain rfl : '(' = d := Option.some.inj head
      cases separates
    | cons c w =>
      obtain rfl : c = d := Option.some.inj head
      rw [isSeparator_letter (letters c (.head w))] at separates
      cases separates
  induction s, t using runs_induction generalizing ahead with
  | nil s => exact part
  | hidden s c rest hidden ih =>
    rw [squeeze_hidden hidden] at part
    rcases List.infix_cons_iff.mp part with first | later
    · rw [← @squeeze_hidden .other _ _ _ hidden] at first
      exact (prefix_of_squeeze letters first).isInfix
    · exact List.infix_cons (ih later)
  | last run separators =>
    rw [squeeze_last separators] at part
    split at part
    · exact absurd (List.infix_nil.mp part) (by simp)
    · exact part
  | run run c rest separators other ih =>
    rw [squeeze_run separators other] at part
    have kept : IsRun (if isRunDropped ahead ([] ++ run) (c :: rest) then [] else run) := by
      split
      · exact isRun_nil
      · exact separators
    refine List.IsInfix.trans ?_ (List.suffix_append run (c :: rest)).isInfix
    rcases List.infix_cons_iff.mp (visible kept part) with ⟨behind, same⟩ | later
    · cases w with
      | nil =>
        obtain ⟨rfl, -⟩ := List.cons.inj same
        exact ⟨[], rest, rfl⟩
      | cons d w =>
        obtain ⟨rfl, tail⟩ := List.cons.inj same
        rw [Ahead.next_letter (letters d (by simp))] at tail
        have later := prefix_of_squeeze (fun e member => letters e (by simp [member])) ⟨behind, tail⟩
        exact (List.cons_prefix_cons.mpr ⟨rfl, later⟩).isInfix
    · exact List.infix_cons (ih later)

theorem Inert.compactText {t : Text} (inert : Inert t) (holds : balanced t = true) :
    Inert (compactText t) := by
  refine ⟨fun member => inert.plain ((mem_compactText rfl t).mp member), fun name known call =>
    inert.uncalled name known ?_⟩
  rw [compactText_eq_squeeze holds] at call
  exact called_before (letters_of_readFunctions name known) (fun _ call => infix_of_squeeze call) call

theorem inert_opened {t : Text} (inert : Inert t) : Inert (opened t) :=
  ⟨inert.urlless.opened.plain, fun name known call => inert.uncalled name known
    (called_before (letters_of_readFunctions name known) (fun _ call => infix_of_opened call) call)⟩

/-- A parenthesis holds no mathematics if no function is called there. -/
theorem opensMath_inert {m : MathState} (none_open : m.inMath = false) {rest : Text}
    (inert : Inert (m.written.reverse ++ '(' :: rest)) : m.opensMath = false := by
  have name : lower (m.written.takeWhile fun c => c.isAlphanum || c == '-').reverse ∉ mathFunctions := by
    intro known
    refine inert.uncalled _ (List.mem_cons_of_mem _ known) ?_
    rw [show ['('] = lower ['('] from rfl, lower, lower, ← List.map_append]
    obtain ⟨before, whole⟩ := List.reverse_suffix.mpr
      (List.takeWhile_prefix (fun c => c.isAlphanum || c == '-') (l := m.written))
    exact List.IsInfix.map _ ⟨before, rest, by rw [← whole]; simp⟩
  unfold MathState.opensMath
  simp [name, none_open]

/-- No parenthesis of the text holds mathematics, so no operator is spaced out. -/
theorem settled_inert {m : MathState} (outside : true ∉ m.parens) {t : Text}
    (inert : Inert (m.written.reverse ++ t)) : Settled m t := by
  induction t generalizing m with
  | nil => trivial
  | cons c rest ih =>
    have none_open : m.inMath = false := by
      cases math : m.inMath with
      | false => rfl
      | true => exact absurd (List.mem_of_mem_head? (by simpa [MathState.inMath] using math)) outside
    have alone : m.emit c rest = [c] := by simp [MathState.emit, none_open]
    refine ⟨alone, ih ?_ ?_⟩
    · unfold MathState.next
      dsimp only
      split
      · exact outside
      · split_ifs with quote opening
        · exact outside
        · rw [opensMath_inert none_open (opening ▸ inert)]
          simpa using outside
        · exact fun member => outside (List.mem_of_mem_tail member)
        · exact outside
    · rw [MathState.written_next, alone]
      simpa using inert

theorem spaceOperators_inert {t : Text} (inert : Inert t) : spaceOperators t = t :=
  Settled.spaceFrom_eq (settled_inert (by simp [MathState.start]) (by simpa [MathState.start] using inert))

theorem decode_inert {t : Text} (inert : Inert t) : decode t = opened t := by
  rw [decode, inert.urlless.unescape_eq rfl, spaceOperators_inert (inert_opened inert)]

theorem trim_part (t : Text) : trim t <:+: t := by
  obtain ⟨before, behind, same, -⟩ := trim_parts t
  exact ⟨before, behind, by rw [List.append_assoc, ← same]⟩

theorem inert_decodeTrimmed {t v : Text} (inert : Inert t) (read : decodeTrimmed t = some v) : Inert v := by
  obtain ⟨rfl, -⟩ := decodeTrimmed_eq read
  rw [decode_inert inert]
  exact (inert_opened inert).part (trim_part _)

/-- Such a text comes back from where it is written. -/
theorem reread_inert {t : Text} (inert : Inert t) (trimmed : trim t = t) : reread t = t := by
  rw [reread_literal trimmed (inert.urlless.literal rfl), spaceOperators_inert inert]

end AtomicCss.Arbitrary
