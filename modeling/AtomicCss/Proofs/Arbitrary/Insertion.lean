import AtomicCss.Proofs.Arbitrary.Mathematics

/-! What reading adds to a text. Where the text has no underscores and no backslashes, reading only
adds single spaces next to operators outside of quotes whose innermost open parenthesis holds
mathematics. Quoted text must not count for the parentheses, so a text is judged by its masked form,
in which only the characters in play are left. -/
namespace AtomicCss

namespace Scan

/-- The quote that is open. -/
def quote? : Scan → Option Char
  | .plain | .escaped => none
  | .quoted q | .quotedEscaped q => some q

theorem quote_eq_none {s : Scan} (settled : s.Settled) : s.quote? = none ↔ s = .plain := by
  obtain rfl | ⟨q, -, rfl⟩ := settled_cases settled <;> simp [quote?]

theorem settled_after {t : Text} (plain : '\\' ∉ t) {s : Scan} (settled : s.Settled) : (s.after t).Settled := by
  induction t generalizing s with
  | nil => exact settled
  | cons c t ih =>
    exact ih (fun member => plain (.tail c member)) (settled_next settled fun same => plain (same ▸ .head t))

/-- A character behind which no quote is open is in play, or it closes a quote. -/
theorem next_eq_plain {s : Scan} (settled : s.Settled) {c : Char} (ends : s.next c = .plain) :
    s = .plain ∧ s.live c = true ∨ s ≠ .plain ∧ isQuote c = true := by
  obtain rfl | ⟨q, quote, rfl⟩ := settled_cases settled
  · refine .inl ⟨rfl, ?_⟩
    simp only [next] at ends
    split at ends
    · cases ends
    · rename_i plain
      split at ends
      · cases ends
      · rename_i unquoted
        simp [live, plain, unquoted]
  · refine .inr ⟨by simp, ?_⟩
    simp only [next] at ends
    split at ends
    · cases ends
    · split at ends
      · rename_i same
        exact same ▸ quote
      · cases ends

end Scan

namespace Arbitrary
open Text Value

def maskFrom (s : Scan) : Text → Text
  | [] => []
  | c :: t => (if s.live c then c else '"') :: maskFrom (s.next c) t

/-- The text with a quote in the place of each character that is not in play. -/
def masked (t : Text) : Text := maskFrom .plain t

theorem maskFrom_append (s : Scan) (a b : Text) :
    maskFrom s (a ++ b) = maskFrom s a ++ maskFrom (s.after a) b := by
  induction a generalizing s with
  | nil => rfl
  | cons c a ih => simp [maskFrom, ih]

theorem masked_concat (t : Text) (c : Char) :
    masked (t ++ [c]) = masked t ++ [if (Scan.plain.after t).live c then c else '"'] :=
  maskFrom_append .plain t [c]

/-- Characters in play are not masked. -/
theorem masked_append {t u : Text} (outside : Scan.plain.after t = .plain)
    (live : ∀ c ∈ u, Scan.plain.live c = true) :
    masked (t ++ u) = masked t ++ u ∧ Scan.plain.after (t ++ u) = .plain := by
  have kept : maskFrom .plain u = u ∧ Scan.plain.after u = .plain := by
    induction u with
    | nil => exact ⟨rfl, rfl⟩
    | cons c u ih =>
      have first := live c (.head u)
      obtain ⟨rest, last⟩ := ih fun d member => live d (.tail c member)
      rw [maskFrom, Scan.after_cons, if_pos first, Scan.next_of_live first]
      exact ⟨congrArg _ rest, last⟩
  rw [Scan.after_append, outside, masked, maskFrom_append, outside, kept.1]
  exact ⟨rfl, kept.2⟩

/-- The name at the end of a text is not masked. -/
theorem endName_masked {t : Text} (plain : '\\' ∉ t) (outside : Scan.plain.after t = .plain) :
    endName (masked t) = endName t := by
  unfold endName
  rw [List.reverse_inj]
  induction t using List.reverseRecOn with
  | nil => rfl
  | append_singleton t c ih =>
    have front : '\\' ∉ t := fun member => plain (by simp [member])
    have settled := Scan.settled_after front Scan.settled_plain
    rw [Scan.after_append] at outside
    rw [masked_concat, List.reverse_concat, List.reverse_concat, List.takeWhile_cons, List.takeWhile_cons]
    rcases Scan.next_eq_plain settled outside with ⟨before, live⟩ | ⟨inside, quote⟩
    · rw [if_pos live, ih front before]
    · have hidden : (Scan.plain.after t).live c = false := by simp [Scan.live, inside]
      have other : c = '"' ∨ c = '\'' := by simpa [Scan.isQuote] using quote
      rw [hidden]
      rcases other with rfl | rfl <;> simp

namespace MathState

/-- What is known behind a text that was written. -/
def reached (front : Text) : MathState :=
  ⟨front.reverse, openMath (masked front).reverse, (Scan.plain.after front).quote?⟩

theorem inMath_reached {front : Text} : (reached front).inMath = true ↔ InMath (masked front) := by
  rw [inMath, beq_iff_eq, reached, inMath_iff, List.reverse_reverse]

theorem opensMath_reached {front : Text} (plain : '\\' ∉ front) (outside : Scan.plain.after front = .plain) :
    (reached front).opensMath =
      opensMath ⟨(masked front).reverse, openMath (masked front).reverse, none⟩ := by
  have name := endName_masked plain outside
  unfold endName at name
  simp [opensMath, inMath, reached, ← name]

theorem openMath_quiet {u : Text} (quiet : ∀ c ∈ u, c ≠ '(' ∧ c ≠ ')') (w : Text) :
    openMath (u ++ w) = openMath w := by
  induction u with
  | nil => rfl
  | cons c u ih =>
    obtain ⟨opens, closes⟩ := quiet c (.head u)
    rw [List.cons_append, openMath, if_neg opens, if_neg closes, ih fun d member => quiet d (.tail c member)]

section

variable {front u : Text} {c : Char}

theorem reached_hidden (hidden : (Scan.plain.after front).live c = false) :
    reached (front ++ [c]) =
      ⟨c :: front.reverse, (reached front).parens, ((Scan.plain.after front).next c).quote?⟩ := by
  simp [reached, masked_concat, hidden, openMath]

theorem reached_live (outside : Scan.plain.after front = .plain) (live : ∀ d ∈ u, Scan.plain.live d = true) :
    reached (front ++ u) =
      ⟨u.reverse ++ front.reverse, openMath (u.reverse ++ (masked front).reverse), none⟩ := by
  obtain ⟨same, outside⟩ := masked_append outside live
  simp [reached, same, outside, Scan.quote?]

end

variable {front rest : Text} {c : Char}

/-- Only spaces are written next to a character. -/
theorem mem_emit {m : MathState} {d : Char} (member : d ∈ m.emit c rest) : d = ' ' ∨ d = c := by
  obtain ⟨before, behind, emitted, gap, gap', -⟩ := emit_eq m c rest
  rw [emitted] at member
  rcases gap with rfl | rfl <;> rcases gap' with rfl | rfl <;> simp at member <;> tauto

/-- What is known is the same for each text that is written. -/
theorem next_reached (plain : '\\' ∉ front) (escape : c ≠ '\\') :
    (reached front).next c rest = reached (front ++ (reached front).emit c rest) := by
  have settled := Scan.settled_after plain Scan.settled_plain
  obtain state | ⟨q, -, state⟩ := Scan.settled_cases settled
  · have unquoted : (reached front).quote = none := by simp [reached, state, Scan.quote?]
    by_cases quote : Scan.isQuote c = true
    · have known : c = '"' ∨ c = '\'' := by simpa [Scan.isQuote] using quote
      have alone : (reached front).emit c rest = [c] := emit_other (by rcases known with rfl | rfl <;> rfl)
      rw [alone, reached_hidden (by simp [Scan.live, quote]), state, next, unquoted, alone]
      simp [reached, known, Scan.next, escape, quote, Scan.quote?]
    · have apart : c ≠ '"' ∧ c ≠ '\'' := by simpa [Scan.isQuote] using quote
      have live : ∀ d ∈ (reached front).emit c rest, Scan.plain.live d = true := by
        intro d member
        rcases mem_emit member with rfl | rfl
        · rfl
        · simp [Scan.live, escape, quote]
      rw [reached_live state live]
      by_cases paren : c = '(' ∨ c = ')'
      · have alone : (reached front).emit c rest = [c] := emit_other (by rcases paren with rfl | rfl <;> rfl)
        rw [next, unquoted, alone]
        rcases paren with rfl | rfl
        · simpa [reached, openMath] using opensMath_reached plain state
        · simp [reached, openMath]
      · have other := not_or.mp paren
        have quiet : ∀ d ∈ ((reached front).emit c rest).reverse, d ≠ '(' ∧ d ≠ ')' := by
          intro d member
          rcases mem_emit (List.mem_reverse.mp member) with rfl | rfl
          · decide
          · exact other
        rw [next_quiet unquoted ⟨apart.1, apart.2, other⟩, openMath_quiet quiet, unquoted]
        rfl
  · have quoted : (reached front).quote = some q := by simp [reached, state, Scan.quote?]
    have alone : (reached front).emit c rest = [c] := by simp [emit, quoted]
    rw [alone, reached_hidden (by rw [state]; rfl), state, next, quoted, alone]
    by_cases closes : c = q
    · simp [reached, closes, Scan.next, closes ▸ escape, Scan.quote?]
    · simp [reached, closes, Scan.next, escape, Scan.quote?]

end MathState

/-- Outside of quotes and directly inside of mathematics, the operator joins an operand in front of it
to what follows. -/
structure Binds (front : Text) (op : Char) (rest : Text) : Prop where
  operator : isOperatorChar op = true
  outside : Scan.plain.after front = .plain
  inside : InMath (masked front)
  left : LeftOperand op (trimEnd front)
  right : ∃ c behind, rest = c :: behind ∧ c ≠ ')'

/-- The second text is the first one with a space on either side of each operator that joins operands,
unless there is a blank character; `front` was written ahead. -/
inductive SpacedOut : Text → Text → Text → Prop
  | nil (front : Text) : SpacedOut front [] []
  | kept {front t u : Text} {c : Char} (alone : ¬ Binds front c t) (rest : SpacedOut (front ++ [c]) t u) :
    SpacedOut front (c :: t) (c :: u)
  | spaced {front t u : Text} {op : Char} (binds : Binds front op t)
    (rest : SpacedOut (front ++ (lacking front.getLast? ++ op :: lacking t.head?)) t u) :
    SpacedOut front (op :: t) (lacking front.getLast? ++ op :: (lacking t.head? ++ u))

theorem SpacedOut.unique {front t u u' : Text} (spaced : SpacedOut front t u) (spaced' : SpacedOut front t u') :
    u = u' := by
  induction spaced generalizing u' with
  | nil front =>
    cases spaced'
    rfl
  | kept alone rest ih =>
    cases spaced' with
    | kept _ rest' => rw [ih rest']
    | spaced binds _ => exact absurd binds alone
  | spaced binds rest ih =>
    cases spaced' with
    | kept alone _ => exact absurd binds alone
    | spaced _ rest' => rw [ih rest']

theorem isBinary_trimEnd {op : Char} (operator : isOperatorChar op = true) (front : Text) :
    isBinary op front.reverse = true ↔ LeftOperand op (trimEnd front) := by
  have visible : (trimEnd front).getLast?.any isBlank = false := by
    rw [trimEnd, List.getLast?_reverse]
    have first := List.head?_dropWhile_not isBlank front.reverse
    cases head : (front.reverse.dropWhile isBlank).head? with
    | none => rfl
    | some c => simpa [head] using first
  rw [← isBinary_iff operator visible, trimEnd, List.reverse_reverse, isBinary, isBinary,
    List.dropWhile_idempotent]

namespace MathState

variable {front rest : Text} {c : Char}

/-- An operator gets the spaces that it lacks exactly if it joins operands. -/
theorem emit_reached (plain : '\\' ∉ front) :
    Binds front c rest ∧
        (reached front).emit c rest = lacking front.getLast? ++ c :: lacking rest.head? ∨
      ¬ Binds front c rest ∧ (reached front).emit c rest = [c] := by
  have settled := Scan.settled_after plain Scan.settled_plain
  have unquoted : (reached front).quote = none ↔ Scan.plain.after front = .plain :=
    Scan.quote_eq_none settled
  have known : (c = '+' ∨ c = '-' ∨ c = '*' ∨ c = '/') ↔ isOperatorChar c = true := by
    simp [isOperatorChar, or_assoc]
  have considered : (reached front).quote = none ∧ (c = '+' ∨ c = '-' ∨ c = '*' ∨ c = '/') ∧
        (reached front).inMath = true ↔
      Scan.plain.after front = .plain ∧ isOperatorChar c = true ∧ InMath (masked front) := by
    rw [unquoted, known, inMath_reached]
  by_cases math : Scan.plain.after front = .plain ∧ isOperatorChar c = true ∧ InMath (masked front)
  · have emitted : (reached front).emit c rest = spacedOut c front.reverse rest := if_pos (considered.mpr math)
    obtain ⟨outside, operator, inside⟩ := math
    have left := isBinary_trimEnd operator front
    rcases spacedOut_cases c front.reverse rest with ⟨⟨binary, right⟩, spaced⟩ | ⟨unary, alone⟩
    · refine .inl ⟨⟨operator, outside, inside, left.mp binary, right⟩, ?_⟩
      rw [emitted, spaced, List.head?_reverse]
    · exact .inr ⟨fun binds => unary ⟨left.mpr binds.left, binds.right⟩, emitted.trans alone⟩
  · exact .inr ⟨fun binds => math ⟨binds.outside, binds.operator, binds.inside⟩,
      if_neg (mt considered.mp math)⟩

end MathState

theorem spacedOut_spaceFrom {front t : Text} (plain : '\\' ∉ front) (plain' : '\\' ∉ t) :
    SpacedOut front t (spaceFrom (.reached front) t) := by
  induction t generalizing front with
  | nil => exact .nil front
  | cons c t ih =>
    have escape : c ≠ '\\' := fun same => plain' (same ▸ .head t)
    have later : '\\' ∉ front ++ (MathState.reached front).emit c t := by
      intro member
      rcases List.mem_append.mp member with ahead | written
      · exact plain ahead
      · rcases MathState.mem_emit written with space | same
        · cases space
        · exact escape same.symm
    have rest := ih later fun member => plain' (.tail c member)
    rw [spaceFrom, MathState.next_reached plain escape]
    rcases @MathState.emit_reached front t c plain with ⟨binds, emitted⟩ | ⟨alone, emitted⟩
    · rw [emitted] at rest ⊢
      simpa using SpacedOut.spaced binds rest
    · rw [emitted] at rest ⊢
      exact .kept alone rest

theorem unescape_eq_self {t : Text} (low : '_' ∉ t) (plain : '\\' ∉ t) (s : Decoding) : unescape s t = t := by
  induction t generalizing s with
  | nil => rfl
  | cons c t ih =>
    have other : c ≠ '_' := fun same => low (same ▸ .head t)
    have escape : c ≠ '\\' := fun same => plain (same ▸ .head t)
    rw [unescape_plain s escape, if_neg fun same => other same.1,
      ih (fun member => low (.tail c member)) fun member => plain (.tail c member)]

/-- Without underscores and backslashes a text is read as itself with the spaces that its operators
lack, where they lie outside of quotes, directly inside of mathematics, and join operands. -/
theorem decode_eq_iff_spacedOut {t u : Text} (low : '_' ∉ t) (plain : '\\' ∉ t) :
    decode t = u ↔ SpacedOut [] t u := by
  have start : spaceOperators t = spaceFrom (.reached []) t := rfl
  have spaced : SpacedOut [] t (decode t) := by
    rw [decode, unescape_eq_self low plain, start]
    exact spacedOut_spaceFrom (by simp) plain
  constructor
  · rintro rfl
    exact spaced
  · exact fun other => spaced.unique other

/-- A difference whose second operand is a call, a quoted sum, a sign, and mathematics that is closed
in front of another function. -/
theorem call_behind_minus_spaced :
    let t : Text := "calc(1-min(2+ 3,'a+b'/(4*-5))))+f(6-7)"
    '_' ∉ t ∧ '\\' ∉ t ∧ SpacedOut [] t "calc(1 - min(2 + 3,'a+b' / (4 * -5))))+f(6-7)" := by
  intro t
  have low : '_' ∉ t := by decide
  have plain : '\\' ∉ t := by decide
  exact ⟨low, plain, (decode_eq_iff_spacedOut low plain).mp (by decide +kernel)⟩

end Arbitrary
end AtomicCss
