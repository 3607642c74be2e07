import AtomicCss.Proofs.Text.Track

/-! Splitting a text that was put together from parts. A solid part keeps all
its separators inside of brackets and leaves no bracket open, so that splitting
never cuts it and goes on after it as if it were not there. Joining solid
parts with the separator is undone by splitting, and every piece of a balanced
text is balanced. -/
namespace AtomicCss.Text

/-- Puts a text in front of the first piece. -/
def glue (a : Text) : List Text → List Text
  | [] => [a]
  | piece :: pieces => (a ++ piece) :: pieces

@[simp] theorem glue_cons (a piece : Text) (pieces : List Text) :
    glue a (piece :: pieces) = (a ++ piece) :: pieces := rfl

theorem segmentFrom_ne_nil (sep : Char) (s : Scan) (closers : List Char) (t : Text) :
    segmentFrom sep s closers t ≠ [] := by
  cases t with
  | nil => simp [segmentFrom]
  | cons c rest =>
    unfold segmentFrom
    split
    · simp
    · cases segmentFrom sep (s.next c) (if s.live c then due closers c else closers) rest <;>
        simp [consHead]

theorem glue_nil {pieces : List Text} (some_piece : pieces ≠ []) : glue [] pieces = pieces := by
  cases pieces with
  | nil => contradiction
  | cons piece pieces => rfl

theorem consHead_glue (c : Char) (a : Text) (pieces : List Text) :
    consHead c (glue a pieces) = glue (c :: a) pieces := by
  cases pieces <;> rfl

theorem glue_glue (a b : Text) (pieces : List Text) :
    glue a (glue b pieces) = glue (a ++ b) pieces := by
  cases pieces <;> simp [glue]

/-- A closer that may stand where it stands takes the due one away, so splitting
and checking for balance agree on the closers. -/
theorem due_of_turn {s s' : Scan} {closers closers' : List Char} {c : Char}
    (step : turn (s, closers) c = some (s', closers')) :
    s' = s.next c ∧ (if s.live c then due closers c else closers) = closers' := by
  unfold turn close? at step
  unfold due
  by_cases live : s.live c
  · simp only [live, if_true] at step ⊢
    cases opened : closer? c with
    | some k =>
      simp only [opened, Option.map_some, Option.some.injEq, Prod.mk.injEq] at step
      exact ⟨step.1.symm, step.2⟩
    | none =>
      by_cases closing : isCloser c
      · cases closers with
        | nil => simp [opened, closing] at step
        | cons k closers => by_cases same : k = c <;> simp_all
      · simp_all
  · simp_all

/-- What one character does to the pieces: it is a separator outside of all brackets, or it belongs to
the first piece of what follows. -/
theorem segmentFrom_turn (sep : Char) {s s' : Scan} {closers closers' : List Char} {c : Char}
    (step : turn (s, closers) c = some (s', closers')) :
    (s = .plain ∧ closers = [] ∧ s' = .plain ∧ closers' = [] ∧
        ∀ rest, segmentFrom sep .plain [] (c :: rest) = [] :: segmentFrom sep .plain [] rest) ∨
      ∀ rest, segmentFrom sep s closers (c :: rest) = consHead c (segmentFrom sep s' closers' rest) := by
  obtain ⟨rfl, stillDue⟩ := due_of_turn step
  by_cases separates : (s.live c && !isBracket c && c == sep && closers.isEmpty) = true
  · have parts := separates
    simp only [Bool.and_eq_true, Bool.not_eq_true', isBracket, Bool.or_eq_false_iff,
      Option.isSome_eq_false_iff, Option.isNone_iff_eq_none, List.isEmpty_iff] at parts
    obtain ⟨⟨⟨live, opens, closes⟩, -⟩, rfl⟩ := parts
    obtain rfl := Scan.plain_of_live live
    have settled := Scan.next_of_live live
    have nothing : closers' = [] := by simpa [due, live, opens, closes] using stillDue.symm
    refine .inl ⟨rfl, rfl, settled, nothing, fun rest => ?_⟩
    rw [segmentFrom, if_pos separates, settled]
  · refine .inr fun rest => ?_
    rw [segmentFrom, if_neg separates, stillDue]

/-- Inside of a bracket that stays open nothing is cut. -/
theorem segmentFrom_inside (sep : Char) {s s' : Scan} {closers closers' : List Char} {a : Text}
    (reached : track (s, closers) a = some (s', closers')) (k : Char) (below : List Char)
    (b : Text) :
    segmentFrom sep s (closers ++ k :: below) (a ++ b) =
      glue a (segmentFrom sep s' (closers' ++ k :: below) b) := by
  induction a generalizing s closers with
  | nil =>
    cases reached
    exact (glue_nil (segmentFrom_ne_nil _ _ _ _)).symm
  | cons c rest ih =>
    rw [track_cons] at reached
    obtain ⟨⟨s₁, closers₁⟩, step, after⟩ := Option.bind_eq_some_iff.mp reached
    obtain ⟨rfl, stillDue⟩ := due_of_turn (turn_below step (k :: below))
    have guarded : (closers ++ k :: below).isEmpty = false := by simp
    rw [List.cons_append, segmentFrom, if_neg (by simp [guarded]), stillDue, ih after,
      consHead_glue]

/-- A text that leaves the reader as it found him. -/
def Closed (a : Text) : Prop := track (.plain, []) a = some (.plain, [])

instance (a : Text) : Decidable (Closed a) := inferInstanceAs (Decidable (_ = _))

theorem Closed.track_eq {a : Text} (closed : Closed a) (closers : List Char) :
    track (.plain, closers) a = some (.plain, closers) := track_below closed closers

theorem Closed.append {a b : Text} (first : Closed a) (second : Closed b) : Closed (a ++ b) := by
  unfold Closed
  rw [track_append_of first, second]

theorem Closed.balanced {a : Text} (closed : Closed a) : balanced a = true :=
  balanced_iff.mpr ⟨.plain, closed, rfl⟩

theorem Closed.balanced_append {a : Text} (closed : Closed a) (b : Text) :
    Text.balanced (a ++ b) = Text.balanced b := by
  rw [Bool.eq_iff_iff, balanced_iff, balanced_iff, track_append_of closed]

theorem closed_neutral {c : Char} (neutral : Neutral c) : Closed [c] := by
  unfold Closed
  rw [track_cons, turn_neutral (by trivial) neutral]
  rfl

theorem closed_of_neutral {a : Text} (neutrals : ∀ c ∈ a, Neutral c) : Closed a := by
  induction a with
  | nil => rfl
  | cons c a ih =>
    exact (closed_neutral (neutrals c (by simp))).append (ih fun d member => neutrals d (by simp [member]))

theorem closed_bracketed {a : Text} (closed : Closed a) : Closed ('[' :: (a ++ [']'])) := by
  unfold Closed
  rw [track_cons, show turn (.plain, []) '[' = some (.plain, [']']) from rfl, Option.bind_some,
    track_append_of (closed.track_eq _)]
  rfl

/-- A closed text whose separators all stand inside of brackets or quotes. -/
structure Solid (sep : Char) (a : Text) : Prop where
  closed : Closed a
  whole : ∀ b, segmentFrom sep .plain [] (a ++ b) = glue a (segmentFrom sep .plain [] b)

namespace Solid

variable {sep : Char} {a b : Text}

theorem nil : Solid sep [] :=
  ⟨rfl, fun _ => (glue_nil (segmentFrom_ne_nil _ _ _ _)).symm⟩

theorem append (first : Solid sep a) (second : Solid sep b) : Solid sep (a ++ b) :=
  ⟨first.closed.append second.closed, fun c => by
    rw [List.append_assoc, first.whole, second.whole, glue_glue]⟩

theorem neutral {c : Char} (neutral : Neutral c) (other : c ≠ sep) : Solid sep [c] := by
  refine ⟨closed_neutral neutral, fun b => ?_⟩
  have step := turn_neutral (p := (.plain, [])) (by trivial) neutral
  have settled : Scan.plain.next c = .plain := next_neutral (by trivial) neutral
  obtain ⟨-, stillDue⟩ := due_of_turn step
  rw [List.singleton_append, segmentFrom, if_neg (by simp [other]), stillDue, settled]
  cases segmentFrom sep .plain [] b <;> rfl

/-- A text without characters that mean anything to the reader. -/
theorem ofNeutral (neutrals : ∀ c ∈ a, Neutral c ∧ c ≠ sep) : Solid sep a := by
  induction a with
  | nil => exact nil
  | cons c rest ih =>
    have head := neutrals c (by simp)
    exact (neutral head.1 head.2).append (ih fun d member => neutrals d (by simp [member]))

theorem bracketed (closed : Closed a) : Solid sep ('[' :: (a ++ [']'])) := by
  refine ⟨closed_bracketed closed, fun b => ?_⟩
  have opened : segmentFrom sep .plain [] ('[' :: (a ++ [']']) ++ b) =
      consHead '[' (segmentFrom sep .plain [']'] (a ++ ']' :: b)) := by
    simp only [List.cons_append, List.append_assoc, segmentFrom]
    rw [if_neg (by simp [isBracket, closer?])]
    rfl
  have inside := segmentFrom_inside sep closed ']' [] (']' :: b)
  have closing : segmentFrom sep .plain [']'] (']' :: b) =
      consHead ']' (segmentFrom sep .plain [] b) := by
    rw [segmentFrom, if_neg (by simp)]
    rfl
  simp only [List.nil_append] at inside
  rw [opened, inside, closing, consHead_glue]
  cases segmentFrom sep .plain [] b <;> simp [consHead, glue]

theorem segment_eq (solid : Solid sep a) : segment sep a = [a] := by
  have cut := solid.whole []
  rw [List.append_nil] at cut
  simp [segment, cut, segmentFrom]

end Solid

theorem joinWith_cons_cons (sep a b : Text) (pieces : List Text) :
    joinWith sep (a :: b :: pieces) = a ++ (sep ++ joinWith sep (b :: pieces)) := by
  simp [joinWith, List.intercalate]

theorem infix_joinWith {pieces : List Text} {p : Text} (member : p ∈ pieces) (sep : Text) :
    p <:+: joinWith sep pieces := by
  induction pieces with
  | nil => cases member
  | cons a pieces ih =>
    cases pieces with
    | nil =>
      rw [List.mem_singleton.mp member]
      exact ⟨[], [], by simp [joinWith, List.intercalate]⟩
    | cons b pieces =>
      rw [joinWith_cons_cons]
      rcases List.mem_cons.mp member with rfl | later
      · exact (List.prefix_append _ _).isInfix
      · exact ((ih later).trans (List.suffix_append sep _).isInfix).trans (List.suffix_append a _).isInfix

theorem closed_joinWith {sep : Char} (neutral : Neutral sep) {pieces : List Text}
    (closed : ∀ piece ∈ pieces, Closed piece) : Closed (joinWith [sep] pieces) := by
  induction pieces with
  | nil => rfl
  | cons a pieces ih =>
    have first := closed a (by simp)
    have others := ih fun piece member => closed piece (by simp [member])
    cases pieces with
    | nil => simpa [joinWith, List.intercalate] using first
    | cons b pieces =>
      rw [joinWith_cons_cons]
      exact first.append ((closed_neutral neutral).append others)

theorem joinWith_concat (sep a : Text) {pieces : List Text} (last : Text) :
    joinWith sep (a :: (pieces ++ [last])) = a ++ (sep ++ joinWith sep (pieces ++ [last])) := by
  cases pieces with
  | nil => exact joinWith_cons_cons sep a last []
  | cons b pieces => exact joinWith_cons_cons sep a b (pieces ++ [last])

/-- Solid pieces in front are cut off one by one. -/
theorem segment_joined {sep : Char} (neutral : Neutral sep) {pieces : List Text}
    (solid : ∀ piece ∈ pieces, Solid sep piece) (last : Text) :
    segment sep (joinWith [sep] (pieces ++ [last])) = pieces ++ segment sep last := by
  induction pieces with
  | nil => simp [joinWith, List.intercalate]
  | cons a pieces ih =>
    have rest : segmentFrom sep .plain [] (joinWith [sep] (pieces ++ [last])) =
        pieces ++ segment sep last := ih fun piece member => solid piece (by simp [member])
    have live : Scan.plain.live sep = true := by
      obtain ⟨plain, unquoted, -⟩ := neutral
      simp [Scan.live, plain, unquoted]
    have settled : Scan.plain.next sep = .plain := next_neutral (by trivial) neutral
    rw [List.cons_append, joinWith_concat, segment, (solid a (by simp)).whole,
      List.singleton_append, segmentFrom, if_pos (by simp [live, neutral.2.2]), settled, rest]
    simp

theorem balanced_joined {sep : Char} (neutral : Neutral sep) {pieces : List Text}
    (closed : ∀ piece ∈ pieces, Closed piece) (last : Text) :
    balanced (joinWith [sep] (pieces ++ [last])) = balanced last := by
  induction pieces with
  | nil => simp [joinWith, List.intercalate]
  | cons a pieces ih =>
    rw [List.cons_append, joinWith_concat, (closed a (by simp)).balanced_append,
      (closed_neutral neutral).balanced_append, ih fun piece member => closed piece (by simp [member])]

/-- Splitting undoes joining. -/
theorem segment_joinWith {sep : Char} (neutral : Neutral sep) {a : Text} {pieces : List Text}
    (solid : ∀ piece ∈ a :: pieces, Solid sep piece) :
    segment sep (joinWith [sep] (a :: pieces)) = a :: pieces := by
  obtain ⟨front, last, whole⟩ := (List.eq_nil_or_concat (a :: pieces)).resolve_left (by simp)
  rw [List.concat_eq_append] at whole
  rw [whole] at solid ⊢
  rw [segment_joined neutral fun piece member => solid piece (by simp [member]),
    (solid last (by simp)).segment_eq]

/-- Every piece of a balanced text is balanced. -/
theorem segmentFrom_balanced (sep : Char) {s s' : Scan} {closers : List Char} {t : Text}
    (reached : track (s, closers) t = some (s', [])) (outside : s'.outside = true) :
    ∃ piece pieces, segmentFrom sep s closers t = piece :: pieces ∧
      (∃ s'', track (s, closers) piece = some (s'', []) ∧ s''.outside = true) ∧
      ∀ other ∈ pieces, balanced other = true := by
  induction t generalizing s closers with
  | nil =>
    cases reached
    exact ⟨[], [], rfl, ⟨s', rfl, outside⟩, by simp⟩
  | cons c rest ih =>
    rw [track_cons] at reached
    obtain ⟨⟨s₁, closers₁⟩, step, after⟩ := Option.bind_eq_some_iff.mp reached
    obtain ⟨piece, pieces, cut, first, others⟩ := ih after
    rcases segmentFrom_turn sep step with ⟨rfl, rfl, rfl, rfl, here⟩ | inside
    · refine ⟨[], piece :: pieces, by rw [here, cut], ⟨.plain, rfl, rfl⟩, ?_⟩
      exact List.forall_mem_cons.mpr ⟨balanced_iff.mpr first, others⟩
    · obtain ⟨s'', last, outside⟩ := first
      refine ⟨c :: piece, pieces, by rw [inside, cut]; rfl, ⟨s'', ?_, outside⟩, others⟩
      rw [track_cons, step, Option.bind_some]
      exact last

theorem balanced_of_mem_segment {sep : Char} {t piece : Text} (holds : balanced t = true)
    (member : piece ∈ segment sep t) : balanced piece = true := by
  obtain ⟨s, reached, outside⟩ := balanced_iff.mp holds
  obtain ⟨first, others, cut, ⟨s', last, outside'⟩, rest⟩ :=
    segmentFrom_balanced sep reached outside
  rw [segment, cut] at member
  rcases List.mem_cons.mp member with rfl | member
  · exact balanced_iff.mpr ⟨s', last, outside'⟩
  · exact rest piece member

private theorem segmentFrom_solid (sep : Char) {s s' : Scan} {closers : List Char} {t : Text}
    (reached : track (s, closers) t = some (s', [])) :
    ∃ piece pieces, segmentFrom sep s closers t = piece :: pieces ∧
      (pieces ≠ [] → track (s, closers) piece = some (.plain, []) ∧
        ∀ b, segmentFrom sep s closers (piece ++ b) = glue piece (segmentFrom sep .plain [] b)) ∧
      ∀ other ∈ pieces.dropLast, Solid sep other := by
  induction t generalizing s closers with
  | nil => exact ⟨[], [], rfl, by simp, by simp⟩
  | cons c rest ih =>
    rw [track_cons] at reached
    obtain ⟨⟨s₁, closers₁⟩, step, after⟩ := Option.bind_eq_some_iff.mp reached
    obtain ⟨piece, pieces, cut, first, others⟩ := ih after
    rcases segmentFrom_turn sep step with ⟨rfl, rfl, rfl, rfl, here⟩ | inside
    · refine ⟨[], piece :: pieces, by rw [here, cut], fun _ => ⟨rfl, fun b => ?_⟩, ?_⟩
      · exact (glue_nil (segmentFrom_ne_nil _ _ _ _)).symm
      · intro other member
        cases pieces with
        | nil => cases member
        | cons next pieces =>
          rcases List.mem_cons.mp member with rfl | member
          · exact ⟨(first (by simp)).1, (first (by simp)).2⟩
          · exact others other member
    · refine ⟨c :: piece, pieces, by rw [inside, cut]; rfl, fun some_left => ?_, others⟩
      obtain ⟨closed, whole⟩ := first some_left
      refine ⟨by rw [track_cons, step, Option.bind_some, closed], fun b => ?_⟩
      rw [List.cons_append, inside, whole, consHead_glue]

/-- Every piece of a balanced text but the last is solid. -/
theorem solid_of_mem_segment {sep : Char} {t piece : Text} (holds : balanced t = true)
    (member : piece ∈ (segment sep t).dropLast) : Solid sep piece := by
  obtain ⟨s, reached, -⟩ := balanced_iff.mp holds
  obtain ⟨first, others, cut, head, rest⟩ := segmentFrom_solid sep reached
  rw [segment, cut] at member
  cases others with
  | nil => cases member
  | cons next others =>
    rcases List.mem_cons.mp member with rfl | member
    · exact ⟨(head (by simp)).1, (head (by simp)).2⟩
    · exact rest piece member

end AtomicCss.Text
