import AtomicCss.Proofs.Text.Closing
import AtomicCss.Proofs.Text.Pieces
import AtomicCss.Proofs.Text.Trim

/-! Putting a text in the place of a character. Where the character stands outside of
quotes and escapes and the text is closed, brackets and quotes stay matched; a solid
text moreover leaves the pieces as they are. -/
namespace AtomicCss.Text

section

variable (c : Char) (u : Text)

@[simp] theorem replace_nil : replace c u [] = [] := rfl

@[simp] theorem replace_append (a b : Text) : replace c u (a ++ b) = replace c u a ++ replace c u b :=
  List.flatMap_append

theorem replace_here (t : Text) : replace c u (c :: t) = u ++ replace c u t := by simp [replace]

theorem replace_other {d : Char} (other : d ≠ c) (t : Text) :
    replace c u (d :: t) = d :: replace c u t := by simp [replace, other]

/-- Replacing what does not occur changes nothing. -/
theorem replace_absent {c : Char} {u t : Text} (absent : c ∉ t) : replace c u t = t := by
  induction t with
  | nil => rfl
  | cons d t ih =>
    simp only [List.mem_cons, not_or] at absent
    rw [replace_other c u (Ne.symm absent.1), ih absent.2]

theorem replace_ne_nil {t : Text} (some_image : u ≠ []) (some_left : t ≠ []) : replace c u t ≠ [] := by
  obtain ⟨d, t, rfl⟩ := List.exists_cons_of_ne_nil some_left
  by_cases same : d = c
  · rw [same, replace_here]
    exact List.append_ne_nil_of_left_ne_nil some_image _
  · rw [replace_other c u same]
    simp

theorem replace_self (t : Text) : replace c [c] t = t := by
  induction t with
  | nil => rfl
  | cons d t ih =>
    by_cases same : d = c
    · rw [same, replace_here, ih, List.singleton_append]
    · rw [replace_other c [c] same, ih]

/-- Replacing twice puts the second text into the first one. -/
theorem replace_replace (v t : Text) :
    replace c u (replace c v t) = replace c (replace c u v) t := by
  induction t with
  | nil => rfl
  | cons d t ih =>
    by_cases same : d = c
    · rw [same, replace_here, replace_append, ih, replace_here]
    · rw [replace_other c v same, replace_other c u same, replace_other c _ same, ih]

theorem replace_joinWith {sep : Text} (kept : replace c u sep = sep) (ts : List Text) :
    replace c u (joinWith sep ts) = joinWith sep (ts.map (replace c u)) := by
  induction ts with
  | nil => rfl
  | cons a ts ih =>
    cases ts with
    | nil => simp [joinWith, List.intercalate]
    | cons b ts =>
      rw [joinWith_cons_cons, replace_append, replace_append, kept, ih, List.map_cons, List.map_cons,
        List.map_cons, joinWith_cons_cons]

/-- The first and the last visible character stay, or what is put there begins and ends visibly. -/
theorem trim_replace {c : Char} {u t : Text} (trimmed : trim u = u) (some_left : u ≠ [])
    (whole : trim t = t) : trim (replace c u t) = replace c u t := by
  refine trim_eq_self (fun e first => ?_) (fun e last => ?_)
  · cases t with
    | nil => cases first
    | cons d t =>
      by_cases same : d = c
      · obtain ⟨f, u, rfl⟩ := List.exists_cons_of_ne_nil some_left
        rw [same, replace_here] at first
        cases first
        exact trim_head trimmed
      · rw [replace_other c u same] at first
        cases first
        exact trim_head whole
  · rcases List.eq_nil_or_concat t with rfl | ⟨t, d, rfl⟩
    · cases last
    · rw [List.concat_eq_append] at whole last
      by_cases same : d = c
      · obtain rfl | ⟨u, f, rfl⟩ := List.eq_nil_or_concat u
        · contradiction
        · rw [List.concat_eq_append] at trimmed last
          rw [same, replace_append, replace_here, replace_nil, List.append_nil, ← List.append_assoc,
            List.getLast?_concat] at last
          cases last
          exact trim_last trimmed
      · rw [replace_append, replace_other c u same, replace_nil, List.getLast?_concat] at last
        cases last
        exact trim_last whole

end

theorem next_plain {c : Char} (neutral : Neutral c) : Scan.plain.next c = .plain :=
  next_neutral (by trivial) neutral

/-- Each `c` is read outside of quotes and escapes. -/
def Exposed (c : Char) (s : Scan) (t : Text) : Prop := ∀ cut ∈ splits c t, s.after cut.1 = .plain

instance (c : Char) (s : Scan) (t : Text) : Decidable (Exposed c s t) :=
  inferInstanceAs (Decidable (∀ cut ∈ splits c t, s.after cut.1 = .plain))

section

variable {c : Char} {s : Scan}

theorem exposed_cons {d : Char} {t : Text} :
    Exposed c s (d :: t) ↔ (d = c → s = .plain) ∧ Exposed c (s.next d) t := by
  simp only [Exposed, splits, List.mem_append, List.mem_map]
  constructor
  · intro exposed
    refine ⟨fun same => ?_, fun cut member => exposed (d :: cut.1, cut.2) (.inl ⟨cut, member, rfl⟩)⟩
    exact exposed ([], t) (.inr (by simp [same]))
  · rintro ⟨here, later⟩ cut (⟨cut, member, rfl⟩ | member)
    · exact later cut member
    · split at member
      · rename_i same
        rw [List.mem_singleton.mp member]
        exact here same
      · cases member

theorem exposed_append {a b : Text} : Exposed c s (a ++ b) ↔ Exposed c s a ∧ Exposed c (s.after a) b := by
  induction a generalizing s with
  | nil => simp [Exposed, splits]
  | cons d a ih => rw [List.cons_append, exposed_cons, exposed_cons, ih, and_assoc, Scan.after_cons]

theorem Exposed.replace {u t : Text} (exposed : Exposed c s t) (neutral : Neutral c)
    (closed : Closed u) (inner : Exposed c .plain u) : Exposed c s (replace c u t) := by
  induction t generalizing s with
  | nil => exact exposed
  | cons d t ih =>
    obtain ⟨here, later⟩ := exposed_cons.mp exposed
    by_cases same : d = c
    · obtain rfl := here same
      rw [same, next_plain neutral] at later
      rw [same, replace_here, exposed_append, track_scan closed]
      exact ⟨inner, ih later⟩
    · rw [replace_other c u same, exposed_cons]
      exact ⟨here, ih later⟩

/-- A closed text does to the reader what a neutral character does. -/
theorem track_replace {u t : Text} (closed : Closed u) (neutral : Neutral c) (exposed : Exposed c s t)
    (closers : List Char) : track (s, closers) (replace c u t) = track (s, closers) t := by
  induction t generalizing s closers with
  | nil => rfl
  | cons d t ih =>
    obtain ⟨here, later⟩ := exposed_cons.mp exposed
    by_cases same : d = c
    · obtain rfl := here same
      rw [same, next_plain neutral] at later
      rw [same, replace_here, track_append_of (closed.track_eq closers), ih later, track_cons,
        turn_neutral (by trivial) neutral]
      rfl
    · rw [replace_other c u same, track_cons, track_cons]
      refine Option.bind_congr fun ⟨s₁, closers₁⟩ step => ?_
      obtain ⟨rfl, -⟩ := due_of_turn step
      exact ih later closers₁

theorem Closed.replace {u t : Text} (whole : Closed t) (neutral : Neutral c)
    (exposed : Exposed c .plain t) (closed : Closed u) : Closed (replace c u t) :=
  (track_replace closed neutral exposed []).trans whole

/-- Between the pieces a solid text is one more character. -/
theorem segmentFrom_replace {sep : Char} {u t : Text} (solid : Solid sep u) (neutral : Neutral c)
    (other : c ≠ sep) (exposed : Exposed c s t) (closers : List Char) :
    segmentFrom sep s closers (replace c u t) = (segmentFrom sep s closers t).map (replace c u) := by
  have front (closers : List Char) (rest : Text) : segmentFrom sep .plain closers (u ++ rest) =
      glue u (segmentFrom sep .plain closers rest) := by
    cases closers with
    | nil => exact solid.whole rest
    | cons k below => exact segmentFrom_inside sep solid.closed k below rest
  induction t generalizing s closers with
  | nil => rfl
  | cons d t ih =>
    obtain ⟨here, later⟩ := exposed_cons.mp exposed
    by_cases same : d = c
    · obtain rfl := here same
      subst same
      have settled := next_plain neutral
      obtain ⟨-, stillDue⟩ := due_of_turn (turn_neutral (p := (.plain, closers)) trivial neutral)
      rw [settled] at later
      rw [replace_here, front, ih later, segmentFrom, if_neg (by simp [other]), stillDue, settled]
      obtain ⟨piece, pieces, cut⟩ := List.exists_cons_of_ne_nil (segmentFrom_ne_nil sep .plain closers t)
      rw [cut]
      simp [consHead, replace_here]
    · rw [replace_other c u same, segmentFrom, segmentFrom, ih later, ih later]
      split
      · rfl
      · obtain ⟨piece, pieces, cut⟩ := List.exists_cons_of_ne_nil (segmentFrom_ne_nil sep (s.next d) _ t)
        rw [cut]
        simp [consHead, replace_other c u same]

theorem segment_replace {sep : Char} {u t : Text} (solid : Solid sep u) (neutral : Neutral c)
    (other : c ≠ sep) (exposed : Exposed c .plain t) :
    segment sep (replace c u t) = (segment sep t).map (replace c u) :=
  segmentFrom_replace solid neutral other exposed []

theorem Solid.replace {sep : Char} {u t : Text} (whole : Solid sep t) (neutral : Neutral c)
    (other : c ≠ sep) (exposed : Exposed c .plain t) (solid : Solid sep u) :
    Solid sep (replace c u t) := by
  refine solid_iff.mpr ⟨whole.closed.replace neutral exposed solid.closed, ?_⟩
  rw [segment_replace solid neutral other exposed, whole.segment_eq, List.map_singleton]

end

end AtomicCss.Text
