import AtomicCss.Proofs.Arbitrary.Recompaction
import AtomicCss.Proofs.Text.Dangling
import AtomicCss.Proofs.Value.Deletion

/-! Which texts come back when they are written between brackets and read again. The
characters must be read as they were written, and the spaces that operators get
must be undone by the canonical spacing. -/
namespace AtomicCss.Arbitrary
open Text Value

/-- Every character is read as it was written: no backslash escapes an underscore or
a space, and no space stands in `url(...)`. -/
def Literal (s : Decoding) : Text → Prop
  | [] => True
  | c :: rest =>
    if c = '\\' then
      match rest with
      | [] => True
      | d :: rest => d ≠ '_' ∧ d ≠ ' ' ∧ Literal s rest
    else if c = ' ' then s.url = none ∧ Literal s rest
    else Literal (s.next c rest) rest

theorem literal_nil (s : Decoding) : Literal s [] := by
  unfold Literal
  trivial

theorem literal_escape (s : Decoding) (d : Char) (rest : Text) :
    Literal s ('\\' :: d :: rest) ↔ d ≠ '_' ∧ d ≠ ' ' ∧ Literal s rest := by
  conv => lhs; unfold Literal
  simp

theorem literal_space (s : Decoding) (rest : Text) :
    Literal s (' ' :: rest) ↔ s.url = none ∧ Literal s rest := by
  conv => lhs; unfold Literal
  simp

theorem literal_other (s : Decoding) {c : Char} (plain : c ≠ '\\') (space : c ≠ ' ') (rest : Text) :
    Literal s (c :: rest) ↔ Literal (s.next c rest) rest := by
  conv => lhs; unfold Literal
  simp [plain, space]

instance decidableLiteral : (s : Decoding) → (t : Text) → Decidable (Literal s t)
  | s, [] => isTrue (literal_nil s)
  | s, [c] => decidable_of_iff (c = ' ' → s.url = none) (by
      unfold Literal
      by_cases escape : c = '\\' <;> simp_all [literal_nil])
  | s, c :: d :: rest =>
    if escape : c = '\\' then
      have := decidableLiteral s rest
      decidable_of_iff _ (escape ▸ (literal_escape s d rest).symm)
    else if space : c = ' ' then
      have := decidableLiteral s (d :: rest)
      decidable_of_iff _ (space ▸ (literal_space s (d :: rest)).symm)
    else
      have := decidableLiteral (s.next c (d :: rest)) (d :: rest)
      decidable_of_iff _ (literal_other s escape space (d :: rest)).symm

theorem respell_literal {s : Decoding} (sound : s.Sound) {t : Text} (literal : Literal s t) :
    respell s t = t := by
  fun_induction respell s t with
  | case1 => rfl
  | case2 => rfl
  | case3 s rest ih => exact absurd rfl ((literal_escape s '_' rest).mp literal).1
  | case4 s rest low ih => exact absurd rfl ((literal_escape s ' ' rest).mp literal).2.1
  | case5 s d rest low space ih => rw [ih sound ((literal_escape s d rest).mp literal).2.2]
  | case6 s rest other ih =>
    rw [literal_other s (by decide) (by decide), Decoding.next_underscore sound] at literal
    rw [ih sound literal]
  | case7 s rest other low ih =>
    rw [literal_space] at literal
    rw [ih sound literal.2, Decoding.gap, if_pos literal.1]
  | case8 s c rest plain low space ih =>
    rw [literal_other s plain space] at literal
    rw [ih (Decoding.sound_next sound c rest) literal]

theorem ink_cons (c : Char) (t : Text) : ink (c :: t) = ink [c] ++ ink t := ink_append [c] t

theorem ink_gap (s : Decoding) : s.url = none ∧ ink [s.gap] = [] ∨ s.url ≠ none ∧ ink [s.gap] = ['_'] := by
  unfold Decoding.gap
  by_cases outside : s.url = none
  · exact .inl ⟨outside, by rw [if_pos outside]; rfl⟩
  · exact .inr ⟨outside, by rw [if_neg outside]; rfl⟩

/-- Reading loses no visible character. -/
theorem length_ink_respell (s : Decoding) (t : Text) :
    (ink t).length ≤ (ink (respell s t)).length := by
  have space : ink [' '] = [] := rfl
  have low : ink ['_'] = ['_'] := rfl
  have backslash : ink ['\\'] = ['\\'] := rfl
  fun_induction respell s t with
  | case1 => exact Nat.le_refl _
  | case2 => exact Nat.le_refl _
  | case3 s rest ih =>
    simp only [ink_cons _ (_ :: _), ink_cons _ rest, ink_cons _ (respell s rest), backslash, low,
      List.length_append]
    simp only [List.length_cons, List.length_nil]
    omega
  | case4 s rest _ ih =>
    simp only [ink_cons _ (_ :: _), ink_cons _ rest, ink_cons _ (respell s rest), backslash, low, space,
      List.length_append]
    simp only [List.length_cons, List.length_nil]
    omega
  | case5 s d rest _ _ ih =>
    simp only [ink_cons _ (_ :: _), ink_cons _ rest, ink_cons _ (respell s rest), List.length_append]
    omega
  | case6 s rest _ ih =>
    rw [ink_cons _ rest, ink_cons _ (respell s rest), List.length_append, List.length_append]
    omega
  | case7 s rest _ _ ih =>
    rw [ink_cons _ rest, ink_cons _ (respell s rest), List.length_append, List.length_append, space]
    simp only [List.length_nil]
    omega
  | case8 s c rest _ _ _ ih =>
    rw [ink_cons _ rest, ink_cons _ (respell _ rest), List.length_append, List.length_append]
    omega

/-- A text that is not literal is read with other visible characters. -/
theorem literal_of_ink {s : Decoding} (sound : s.Sound) {t : Text}
    (same : ink (respell s t) = ink t) : Literal s t := by
  have tail (c : Char) {t u : Text} (same : ink (c :: t) = ink (c :: u)) : ink t = ink u := by
    rwa [ink_cons c t, ink_cons c u, List.append_cancel_left_eq] at same
  fun_induction respell s t with
  | case1 s => exact literal_nil s
  | case2 s => unfold Literal; simp
  | case3 s rest ih => cases tail _ same
  | case4 s rest _ ih => cases same
  | case5 s d rest low space ih =>
    exact (literal_escape s d rest).mpr ⟨low, space, ih sound (tail _ (tail _ same))⟩
  | case6 s rest _ ih =>
    rw [literal_other s (by decide) (by decide), Decoding.next_underscore sound]
    exact ih sound (tail _ same)
  | case7 s rest _ _ ih =>
    rw [literal_space]
    rw [ink_cons, ink_cons ' '] at same
    rcases ink_gap s with ⟨outside, gap⟩ | ⟨inside, gap⟩
    · rw [gap] at same
      exact ⟨outside, ih sound same⟩
    · -- A space in `url(...)` comes back as a character more.
      have more := congrArg List.length same
      rw [gap, show ink [' '] = [] from rfl] at more
      have enough := length_ink_respell s rest
      simp only [List.length_append, List.length_cons, List.length_nil] at more
      omega
  | case8 s c rest plain low space ih =>
    rw [literal_other s plain space]
    exact ih (Decoding.sound_next sound c rest) (tail _ same)

theorem Settled.front {m : MathState} {a b : Text} (settled : Settled m (a ++ b)) : Settled m a := by
  induction a generalizing m with
  | nil => trivial
  | cons c a ih =>
    obtain ⟨alone, later⟩ := settled
    have kept : m.emit c a = [c] := by
      cases a with
      | nil => unfold MathState.emit; split <;> rfl
      | cons d a => exact (MathState.emit_congr rfl).trans alone
    exact ⟨kept, ih (by rwa [MathState.next_congr (kept.trans alone.symm)])⟩

/-- What stands in front of a place outside of parentheses does not matter. -/
theorem settled_behind {m : MathState} (founded : m.Founded) {base : Text} (boundary : Boundary base)
    (t : Text) : Settled (m.behind base) t ↔ Settled m t := by
  induction t generalizing m with
  | nil => exact Iff.rfl
  | cons c rest ih =>
    rw [Settled, Settled, MathState.emit_behind founded, MathState.next_behind founded boundary,
      ih (MathState.founded_next founded c rest)]

theorem settled_blank {before t : Text} (blank : ∀ c ∈ before, isBlank c = true) {m : MathState}
    (unquoted : m.quote = none) :
    Settled m (before ++ t) ↔ Settled { m with written := before.reverse ++ m.written } t := by
  induction before generalizing m with
  | nil => exact Iff.rfl
  | cons c before ih =>
    have here := blank c (by simp)
    have apart {d : Char} (visible : isBlank d = false) : c ≠ d := by
      rintro rfl
      simp [here] at visible
    rw [List.cons_append, settled_quiet unquoted ⟨apart rfl, apart rfl, apart rfl, apart rfl⟩
      (MathState.emit_other (by simp [isOperatorChar, apart (d := '+') rfl, apart (d := '-') rfl,
        apart (d := '*') rfl, apart (d := '/') rfl])),
      ih (fun d member => blank d (by simp [member]))]
    · simp
    · exact unquoted

theorem boundary_blank {before : Text} (blank : ∀ c ∈ before, isBlank c = true) : Boundary before := by
  intro c head
  have here := blank c (List.mem_of_mem_head? head)
  refine ⟨?_, ?_⟩
  · cases letter : c.isAlphanum with
    | false => rfl
    | true => simp [visible_of_isNameChar (c := c) (by simp [isNameChar, letter])] at here
  · rintro rfl
    cases here

theorem settled_trim {t : Text} (settled : Settled .start t) : Settled .start (trim t) := by
  obtain ⟨before, behind, whole, blank, -⟩ := trim_parts t
  rw [whole, settled_blank blank rfl] at settled
  have founded : MathState.start.Founded := fun opened => absurd rfl opened
  have base : Boundary before.reverse :=
    boundary_blank fun c member => blank c (List.mem_reverse.mp member)
  refine (settled_behind founded base (trim t)).mp ?_
  simpa [MathState.behind, MathState.start] using settled.front

/-- No operator of a text that was read gets further spaces. -/
theorem settled_decodeTrimmed {t v : Text} (read : decodeTrimmed t = some v) : Settled .start v := by
  obtain ⟨rfl, -⟩ := decodeTrimmed_eq read
  exact settled_trim (settled_spaceFrom .start _)

theorem Settled.undone {m : MathState} {t : Text} (settled : Settled m t) (s : Scan) (apart : Bool) :
    Undone m s apart t := by
  induction t generalizing m s apart with
  | nil => trivial
  | cons c rest ih => exact ⟨.inl settled.1, ih settled.2 _ _⟩

/-- The last character gets no space. -/
theorem getLast_spaceFrom (m : MathState) (t : Text) : (spaceFrom m t).getLast? = t.getLast? := by
  induction t generalizing m with
  | nil => rfl
  | cons c rest ih =>
    rw [spaceFrom, List.getLast?_append, ih, List.getLast?_cons]
    cases rest with
    | nil =>
      have alone : m.emit c [] = [c] := by unfold MathState.emit; split <;> rfl
      simp [alone]
    | cons d rest => simp [List.getLast?_cons]

/-- Nor does the first. -/
theorem head_spaceOperators (t : Text) : (spaceOperators t).head? = t.head? := by
  cases t with
  | nil => rfl
  | cons c rest =>
    rw [spaceOperators, spaceFrom, emit_outside rfl]
    rfl

theorem trim_spaceOperators {t : Text} (trimmed : trim t = t) :
    trim (spaceOperators t) = spaceOperators t := by
  refine trim_eq_self (fun c head => ?_) fun c last => ?_
  · rw [head_spaceOperators] at head
    obtain ⟨rest, same⟩ := List.head?_eq_some_iff.mp head
    exact trim_head (trimmed.trans same)
  · rw [spaceOperators, getLast_spaceFrom] at last
    exact endsVisibly_of_trimmed trimmed c last

/-- The text is read as it was written, up to spaces that the canonical spacing
takes away again. -/
structure Legible (t : Text) : Prop where
  ends : ¬ Dangling t
  literal : Literal .start t
  undone : Undone .start .plain false t

instance (t : Text) : Decidable (Legible t) :=
  decidable_of_iff (¬ Dangling t ∧ Literal .start t ∧ Undone .start .plain false t)
    ⟨fun ⟨ends, literal, undone⟩ => ⟨ends, literal, undone⟩,
      fun legible => ⟨legible.ends, legible.literal, legible.undone⟩⟩

theorem ink_reread (t : Text) : ink (reread t) = ink (respell .start t) := by
  rw [reread_eq, ink_trim, spaceOperators, ink_spaceFrom]

theorem closed_of_thinned {v k : Text} (thinned : Thinned .plain v k) : Closed k ↔ Closed v := by
  rw [Closed, Closed, thinned.track_eq]

/-- What is read differently does not become the same by canonical spacing. -/
theorem literal_of_reread {t : Text} (same : ink (reread t) = ink t) : Literal .start t :=
  literal_of_ink Decoding.sound_start (by rwa [ink_reread] at same)

theorem reread_literal {t : Text} (trimmed : trim t = t) (literal : Literal .start t) :
    reread t = spaceOperators t := by
  rw [reread_eq, respell_literal Decoding.sound_start literal, trim_spaceOperators trimmed]

/-- Canonical spacing of a text. -/
structure Compact (k : Text) : Prop where
  balanced : balanced k = true
  trimmed : trim k = k
  compact : squeeze .edge [] .plain k = k

theorem compact_compactText {v : Text} (reading : Reading v) : Compact (compactText v) := by
  have thinned := thinned_compactText v
  have balanced : balanced (compactText v) = true := by
    rw [balanced_iff, thinned.track_eq]
    exact balanced_iff.mp reading.balanced
  refine ⟨balanced, trim_eq_self (fun c head => ?_) (thinned.endsVisibly ?_), ?_⟩
  · obtain ⟨d, rest, whole⟩ := List.exists_cons_of_ne_nil reading.some_left
    have first := trim_head (reading.trimmed.trans whole)
    rw [whole] at thinned head
    obtain ⟨rest', same⟩ := thinned.head_eq first
    rw [same] at head
    cases head
    exact first
  · exact endsVisibly_of_trimmed reading.trimmed
  · rw [← compactText_eq_squeeze balanced, compactText_again]

/-- Canonical text comes back in canonical spacing exactly if it is read as it was
written and the spaces of its operators are undone. -/
theorem compactText_reread_iff {k : Text} (compact : Compact k) :
    compactText (reread k) = k ↔ Literal .start k ∧ Undone .start .plain false k := by
  have agrees : Agrees .edge .start := ⟨fun _ => .inl rfl, nofun⟩
  have literal (same : compactText (reread k) = k) : Literal .start k :=
    literal_of_reread (by rw [← ink_compactText, same])
  have spaced (literal : Literal .start k) :
      compactText (reread k) = k ↔ Undone .start .plain false k := by
    have balanced : Text.balanced (spaceOperators k) = true := by
      rw [balanced_iff, spaceOperators, (spaceFrom_respelled .start k).track_eq (by trivial)]
      exact balanced_iff.mp compact.balanced
    rw [reread_literal compact.trimmed literal, compactText_eq_squeeze balanced]
    exact squeeze_spaceFrom_iff agrees .plain k compact.compact
  constructor
  · exact fun same => ⟨literal same, (spaced (literal same)).mp same⟩
  · rintro ⟨literal, undone⟩
    exact (spaced literal).mpr undone

theorem legible_iff {k : Text} (compact : Compact k) :
    Legible k ↔ Closed k ∧ compactText (reread k) = k := by
  rw [closed_iff_not_dangling compact.balanced, compactText_reread_iff compact]
  constructor
  · exact fun legible => ⟨legible.ends, legible.literal, legible.undone⟩
  · rintro ⟨ends, literal, undone⟩
    exact ⟨ends, literal, undone⟩

/-- Text that needs no further spaces comes back exactly if it is read as it was written. -/
theorem legible_settled_iff {v : Text} (reading : Reading v) (settled : Settled .start v) :
    Legible v ↔ Closed v ∧ compactText (reread v) = compactText v := by
  have literal : Literal .start v ↔ compactText (reread v) = compactText v := by
    constructor
    · intro literal
      rw [reread_literal reading.trimmed literal, spaceOperators, settled.spaceFrom_eq]
    · intro same
      exact literal_of_reread (by rw [← ink_compactText, same, ink_compactText])
  rw [closed_iff_not_dangling reading.balanced, ← literal]
  constructor
  · exact fun legible => ⟨legible.ends, legible.literal⟩
  · rintro ⟨ends, literal⟩
    exact ⟨ends, literal, settled.undone _ _⟩

end AtomicCss.Arbitrary
