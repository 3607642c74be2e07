import AtomicCss.Proofs.Text.Dangling
import AtomicCss.Proofs.Text.Pieces

/-! Splitting keeps every character and leaves nothing to be split. A separator that is put
between two texts always splits them if it is not itself read as a bracket, a quote or an
escape, and if the text in front leaves no bracket, no quote and no escape open. An escape
that is left open is the one thing that balance does not rule out. -/
namespace AtomicCss.Text

/-- Between two separators, and at either end, the reader is where he was at the start, so each
piece alone is read as it was within the text. -/
theorem segmentFrom_uncut (sep : Char) (s : Scan) (closers : List Char) (t : Text) :
    ∃ piece pieces, segmentFrom sep s closers t = piece :: pieces ∧
      segmentFrom sep s closers piece = [piece] ∧ ∀ other ∈ pieces, segment sep other = [other] := by
  induction t generalizing s closers with
  | nil => exact ⟨[], [], rfl, rfl, by simp⟩
  | cons c rest ih =>
    by_cases separates : (s.live c && !isBracket c && c == sep && closers.isEmpty) = true
    · obtain ⟨piece, pieces, cut, first, others⟩ := ih (s.next c) closers
      refine ⟨[], piece :: pieces, by rw [segmentFrom, if_pos separates, cut], rfl, ?_⟩
      simp only [Bool.and_eq_true, List.isEmpty_iff] at separates
      obtain ⟨⟨⟨live, -⟩, -⟩, rfl⟩ := separates
      rw [Scan.next_of_live live] at first
      exact List.forall_mem_cons.mpr ⟨first, others⟩
    · obtain ⟨piece, pieces, cut, first, others⟩ :=
        ih (s.next c) (if s.live c then due closers c else closers)
      refine ⟨c :: piece, pieces, ?_, ?_, others⟩
      · rw [segmentFrom, if_neg separates, cut]
        rfl
      · rw [segmentFrom, if_neg separates, first]
        rfl

theorem segment_piece {sep : Char} {t piece : Text} (member : piece ∈ segment sep t) :
    segment sep piece = [piece] := by
  obtain ⟨first, others, cut, alone, later⟩ := segmentFrom_uncut sep .plain [] t
  rw [segment, cut] at member
  rcases List.mem_cons.mp member with rfl | member
  · exact alone
  · exact later piece member

theorem segment_separated {sep : Char} (neutral : Neutral sep) {a : Text} (closed : Closed a) (b : Text) :
    segment sep (a ++ sep :: b) = segment sep a ++ segment sep b := by
  rw [segment_append closed, segment_separator neutral, attach_nil (segment_ne_nil sep a)]

/-- Behind an open escape the separator is a character of the last piece. -/
theorem length_segment_dangling {sep : Char} {a : Text} (holds : balanced a = true) (dangling : Dangling a) :
    (segment sep (a ++ [sep])).length = (segment sep a).length := by
  obtain ⟨s, reached, -⟩ := balanced_iff.mp holds
  obtain rfl : s = .escaped := (track_scan reached).symm.trans dangling
  have behind : segmentFrom sep .escaped [] [sep] = [[sep]] := rfl
  have cut : segment sep (a ++ [sep]) = attach (segment sep a) [[sep]] := by
    rw [segment, segmentFrom_append reached, behind]
    rfl
  have count := length_attach (segment_ne_nil sep a) (List.cons_ne_nil [sep] [])
  rw [cut]
  simpa using count

/-- Behind a balanced text a separator always splits, unless an escape is left open there. -/
theorem segment_separated_iff {sep : Char} (neutral : Neutral sep) {a : Text} (holds : balanced a = true) :
    (∀ b, segment sep (a ++ sep :: b) = segment sep a ++ segment sep b) ↔ ¬ Dangling a := by
  constructor
  · intro splits dangling
    have count := congrArg List.length (splits [])
    rw [length_segment_dangling holds dangling, List.length_append] at count
    exact absurd count (Nat.ne_of_lt (Nat.lt_add_of_pos_right (segment_pos sep [])))
  · exact fun ends => segment_separated neutral ((closed_iff_not_dangling holds).mpr ends)

/-- Joining the pieces gives the text, no piece can be split, and what is split behind a
separator is split as if it stood alone, exactly if no escape is left open in front of it. -/
theorem segment_lossless (sep : Char) (t : Text) :
    joinWith [sep] (segment sep t) = t ∧ (∀ piece ∈ segment sep t, segment sep piece = [piece]) ∧
      (Neutral sep → ∀ a, balanced a = true →
        ((∀ b, segment sep (a ++ sep :: b) = segment sep a ++ segment sep b) ↔ ¬ Dangling a)) := by
  exact ⟨joinWith_segment sep t, fun _ member => segment_piece member,
    fun neutral _ holds => segment_separated_iff neutral holds⟩

theorem quoted_bracket_splits :
    segment ':' ("a\\:['(:']".toList ++ ':' :: "b:[c:d]".toList) =
      segment ':' "a\\:['(:']" ++ segment ':' "b:[c:d]" :=
  ((segment_lossless ':' "a\\:['(:']").2.2 (by decide) _ (by decide)).mpr (by decide) _

/-- Brackets around closed text are cut by no separator, whatever they hold. -/
theorem length_segment_bracketed (sep : Char) {a b : Text} (before : Closed a) (inside : Closed b) :
    (segment sep (a ++ '[' :: (b ++ [']']))).length = (segment sep a).length := by
  have count := length_segment_append sep before ('[' :: (b ++ [']']))
  have whole : Solid sep ('[' :: (b ++ [']'])) := .bracketed inside
  rw [whole.segment_eq, List.length_singleton] at count
  exact Nat.succ.inj count

/-- The three readings of brackets agree. A balanced text ends in a square bracket in play exactly
if its bracketed end is found: then what is in front of it and what is inside are balanced, and other
contents in the brackets leave as many pieces for every separator. -/
theorem bracketed_end_iff {t : Text} (holds : balanced t = true) :
    (∃ u, t = u ++ [']'] ∧ Scan.plain.after u = .plain) ↔
      ∃ before inner, splitClosing? t = some (before, inner) ∧ t = before ++ '[' :: (inner ++ [']']) ∧
        balanced before = true ∧ balanced inner = true ∧
        ∀ sep, (segment sep (before ++ "[x]")).length = (segment sep t).length := by
  constructor
  · rintro ⟨u, rfl, live⟩
    obtain ⟨a, b, rfl, outer, inner⟩ := bracketed_end holds live
    have whole : a ++ '[' :: b ++ [']'] = a ++ '[' :: (b ++ [']']) := by simp
    have other : Closed ['x'] := closed_neutral (by decide)
    rw [whole]
    refine ⟨a, b, splitClosing_bracketed outer inner, rfl, outer.balanced, inner.balanced, fun sep => ?_⟩
    rw [length_segment_bracketed sep outer inner, ← length_segment_bracketed sep outer other]
    rfl
  · rintro ⟨before, inner, found, -⟩
    obtain ⟨i, place, -⟩ := Option.map_eq_some_iff.mp found
    exact closedByLast_live place

/-- Brackets of the three kinds, in quotes, behind an escape and nested in one another. -/
theorem nested_end_found :
    let t : Text := "a\\]:[(':[').b]:c-[d:\x7be[f:\\]]\x7d]"
    balanced t = true ∧ (∃ u, t = u ++ [']'] ∧ Scan.plain.after u = .plain) ∧
      ∃ before inner, splitClosing? t = some (before, inner) ∧ t = before ++ '[' :: (inner ++ [']']) ∧
        balanced before = true ∧ balanced inner = true ∧
        ∀ sep, (segment sep (before ++ "[x]")).length = (segment sep t).length := by
  intro t
  have holds : balanced t = true := by decide
  have ends : ∃ u, t = u ++ [']'] ∧ Scan.plain.after u = .plain := ⟨t.dropLast, by decide, by decide⟩
  exact ⟨holds, ends, (bracketed_end_iff holds).mp ends⟩

end AtomicCss.Text
