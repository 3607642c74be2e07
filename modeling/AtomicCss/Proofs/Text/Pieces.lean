import AtomicCss.Proofs.Text.Cut

/-! Cutting a text that was put together. The last piece of the front goes on in the first
piece of what stands behind it, and behind a closed front the cutting starts anew. -/
namespace AtomicCss.Text

/-- The pieces of a text behind those of another one. -/
def attach : List Text → List Text → List Text
  | [], pieces => pieces
  | [last], pieces => glue last pieces
  | piece :: next :: front, pieces => piece :: attach (next :: front) pieces

theorem attach_consHead (c : Char) {front : List Text} (some_front : front ≠ []) (pieces : List Text) :
    attach (consHead c front) pieces = consHead c (attach front pieces) := by
  obtain ⟨piece, front, rfl⟩ := List.exists_cons_of_ne_nil some_front
  cases front with
  | nil => exact (consHead_glue c piece pieces).symm
  | cons next front => rfl

/-- A separator in front leaves the last piece as it is. -/
theorem attach_nil {front : List Text} (some_front : front ≠ []) (pieces : List Text) :
    attach front ([] :: pieces) = front ++ pieces := by
  induction front with
  | nil => contradiction
  | cons piece front ih =>
    cases front with
    | nil => simp [attach]
    | cons next front => simp [attach, ih]

theorem length_attach {front pieces : List Text} (some_front : front ≠ []) (some_piece : pieces ≠ []) :
    (attach front pieces).length + 1 = front.length + pieces.length := by
  induction front with
  | nil => contradiction
  | cons piece front ih =>
    cases front with
    | nil =>
      obtain ⟨first, pieces, rfl⟩ := List.exists_cons_of_ne_nil some_piece
      simp [attach, Nat.add_comm]
    | cons next front =>
      have later := ih (by simp)
      simp only [attach, List.length_cons] at later ⊢
      omega

theorem segmentFrom_append {sep : Char} {s s' : Scan} {closers closers' : List Char} {a : Text}
    (reached : track (s, closers) a = some (s', closers')) (b : Text) :
    segmentFrom sep s closers (a ++ b) =
      attach (segmentFrom sep s closers a) (segmentFrom sep s' closers' b) := by
  induction a generalizing s closers with
  | nil =>
    cases reached
    exact (glue_nil (segmentFrom_ne_nil _ _ _ _)).symm
  | cons c a ih =>
    rw [track_cons] at reached
    obtain ⟨⟨s₁, closers₁⟩, step, after⟩ := Option.bind_eq_some_iff.mp reached
    have some_piece := segmentFrom_ne_nil sep s₁ closers₁ a
    rw [List.cons_append]
    rcases segmentFrom_turn sep step with ⟨rfl, rfl, rfl, rfl, here⟩ | inside
    · rw [here, here, ih after]
      obtain ⟨piece, pieces, cut⟩ := List.exists_cons_of_ne_nil some_piece
      rw [cut]
      rfl
    · rw [inside, inside, ih after, attach_consHead c some_piece]

theorem segment_append {sep : Char} {a : Text} (closed : Closed a) (b : Text) :
    segment sep (a ++ b) = attach (segment sep a) (segment sep b) := segmentFrom_append closed b

theorem segment_ne_nil (sep : Char) (t : Text) : segment sep t ≠ [] := segmentFrom_ne_nil sep .plain [] t

theorem segment_separator {sep : Char} (neutral : Neutral sep) (t : Text) :
    segment sep (sep :: t) = [] :: segment sep t := by
  obtain ⟨plain, unquoted, unbracketed⟩ := neutral
  have live : Scan.plain.live sep = true := by simp [Scan.live, plain, unquoted]
  rw [segment, segmentFrom, if_pos (by simp [live, unbracketed]), Scan.next_of_live live]
  rfl

/-- A text is solid if it is closed and the cutting leaves it whole. -/
theorem solid_iff {sep : Char} {a : Text} : Solid sep a ↔ Closed a ∧ segment sep a = [a] := by
  constructor
  · exact fun solid => ⟨solid.closed, solid.segment_eq⟩
  · rintro ⟨closed, whole⟩
    refine ⟨closed, fun b => ?_⟩
    have cut : segment sep (a ++ b) = attach (segment sep a) (segment sep b) := segment_append closed b
    rw [whole] at cut
    exact cut

/-- Every piece of a closed text is solid, the last one too. -/
theorem solid_of_closed {sep : Char} (neutral : Neutral sep) {t piece : Text} (closed : Closed t)
    (member : piece ∈ segment sep t) : Solid sep piece := by
  have behind : segment sep (t ++ [sep]) = segment sep t ++ [[]] := by
    rw [segment_append closed, segment_separator neutral]
    exact attach_nil (segment_ne_nil sep t) [[]]
  refine solid_of_mem_segment (t := t ++ [sep]) (closed.append (closed_neutral neutral)).balanced ?_
  rw [behind, List.dropLast_concat]
  exact member

theorem front_of_joined {sep : Char} (neutral : Neutral sep) {pieces : List Text} {piece : Text}
    (closed : ∀ other ∈ pieces, Closed other) (member : piece ∈ pieces) :
    ∃ front behind, joinWith [sep] pieces = front ++ (piece ++ behind) ∧ Closed front := by
  induction pieces with
  | nil => cases member
  | cons a pieces ih =>
    obtain ⟨first, others⟩ := List.forall_mem_cons.mp closed
    cases pieces with
    | nil =>
      obtain rfl := List.mem_singleton.mp member
      exact ⟨[], [], by simp [joinWith, List.intercalate], rfl⟩
    | cons b pieces =>
      rw [joinWith_cons_cons]
      rcases List.mem_cons.mp member with rfl | member
      · exact ⟨[], _, rfl, rfl⟩
      · obtain ⟨front, behind, whole, shut⟩ := ih others member
        refine ⟨a ++ ([sep] ++ front), behind, by rw [whole]; simp, ?_⟩
        exact first.append ((closed_neutral neutral).append shut)

/-- What stands in front of a piece of a closed text is closed. -/
theorem front_of_piece {sep : Char} (neutral : Neutral sep) {t piece : Text} (closed : Closed t)
    (member : piece ∈ segment sep t) : ∃ front behind, t = front ++ (piece ++ behind) ∧ Closed front := by
  have found := front_of_joined neutral
    (fun other inside => (solid_of_closed neutral closed inside).closed) member
  rwa [joinWith_segment] at found

/-- Closed texts that are joined are cut each on its own. -/
theorem segment_joinWith_closed {sep : Char} (neutral : Neutral sep) {pieces : List Text}
    (some_piece : pieces ≠ []) (closed : ∀ piece ∈ pieces, Closed piece) :
    segment sep (joinWith [sep] pieces) = pieces.flatMap (segment sep) := by
  induction pieces with
  | nil => contradiction
  | cons a pieces ih =>
    obtain ⟨first, others⟩ := List.forall_mem_cons.mp closed
    cases pieces with
    | nil => simp [joinWith, List.intercalate]
    | cons b pieces =>
      rw [joinWith_cons_cons, segment_append first, List.singleton_append, segment_separator neutral,
        attach_nil (segment_ne_nil sep a), ih (by simp) others]
      rfl

theorem segment_pos (sep : Char) (t : Text) : 0 < (segment sep t).length :=
  List.length_pos_iff.mpr (segment_ne_nil sep t)

theorem length_segment_append (sep : Char) {a : Text} (closed : Closed a) (b : Text) :
    (segment sep (a ++ b)).length + 1 = (segment sep a).length + (segment sep b).length := by
  rw [segment_append closed]
  exact length_attach (segment_ne_nil sep a) (segment_ne_nil sep b)

/-- What stands in a piece stands in the text. -/
theorem mem_of_mem_segment {sep : Char} {t piece : Text} (member : piece ∈ segment sep t) {c : Char}
    (inside : c ∈ piece) : c ∈ t := by
  have joined {pieces : List Text} (member : piece ∈ pieces) : c ∈ joinWith [sep] pieces := by
    induction pieces with
    | nil => cases member
    | cons a pieces ih =>
      cases pieces with
      | nil =>
        rw [List.mem_singleton.mp member] at inside
        simpa [joinWith, List.intercalate] using inside
      | cons b pieces =>
        rw [joinWith_cons_cons, List.mem_append, List.mem_append]
        rcases List.mem_cons.mp member with rfl | later
        · exact .inl inside
        · exact .inr (.inr (ih later))
  have found := joined member
  rwa [joinWith_segment] at found

theorem segment_alone {sep : Char} {t first : Text} (only : segment sep t = [first]) : first = t := by
  have whole := joinWith_segment sep t
  rw [only] at whole
  simpa [joinWith, List.intercalate] using whole

theorem segment_eq_self {sep : Char} {t : Text} (single : (segment sep t).length = 1) :
    segment sep t = [t] := by
  obtain ⟨only, alone⟩ := List.length_eq_one_iff.mp single
  rw [alone, segment_alone alone]

/-- A closed part of a solid text is solid. -/
theorem Solid.part {sep : Char} {before t behind : Text} (solid : Solid sep (before ++ (t ++ behind)))
    (front : Closed before) (closed : Closed t) : Solid sep t := by
  have outer := length_segment_append sep front (t ++ behind)
  have inner := length_segment_append sep closed behind
  rw [solid.segment_eq, List.length_singleton] at outer
  have single : (segment sep t).length = 1 := by
    have := segment_pos sep before
    have := segment_pos sep t
    have := segment_pos sep behind
    omega
  exact solid_iff.mpr ⟨closed, segment_eq_self single⟩

end AtomicCss.Text
