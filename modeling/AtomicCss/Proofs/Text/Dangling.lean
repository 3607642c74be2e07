import AtomicCss.Proofs.Text.Closing
import AtomicCss.Proofs.Text.Name

/-! Texts that end in the middle of an escape. Between brackets such a text takes
the closing bracket out of play, and one bracket stays open for each of them. -/
namespace AtomicCss
open Text

/-- The text ends in a backslash that escapes nothing yet. -/
def Dangling (t : Text) : Prop := Scan.after .plain t = .escaped

instance (t : Text) : Decidable (Dangling t) := inferInstanceAs (Decidable (_ = _))

theorem Dangling.backslash {t : Text} (dangling : Dangling t) : ∃ front, t = front ++ ['\\'] := by
  obtain rfl | ⟨front, c, rfl⟩ := List.eq_nil_or_concat t
  · cases dangling
  · rw [List.concat_eq_append] at dangling ⊢
    have last : (Scan.after .plain front).next c = .escaped := by simpa [Dangling] using dangling
    by_cases same : c = '\\'
    · exact ⟨front, by rw [same]⟩
    · cases state : Scan.after .plain front with
      | plain => grind [Scan.next]
      | escaped => simp [state, Scan.next] at last
      | quoted q => grind [Scan.next]
      | quotedEscaped q => simp [state, Scan.next] at last

theorem closed_iff_not_dangling {t : Text} (holds : balanced t = true) : Closed t ↔ ¬ Dangling t := by
  obtain ⟨s, reached, outside⟩ := balanced_iff.mp holds
  have after := track_scan reached
  cases s with
  | plain => simp [Closed, Dangling, reached, after]
  | escaped => simp [Closed, Dangling, reached, after]
  | quoted => cases outside
  | quotedEscaped => cases outside

theorem not_dangling_of_plain {t : Text} (plain : '\\' ∉ t) : ¬ Dangling t := by
  intro dangling
  obtain ⟨front, rfl⟩ := dangling.backslash
  simp at plain

/-- The number of texts that are not closed. -/
def loose (ts : List Text) : Nat := ts.countP fun t => !decide (Closed t)

theorem loose_eq_zero {ts : List Text} : loose ts = 0 ↔ ∀ t ∈ ts, Closed t := by
  simp [loose, List.countP_eq_zero]

@[simp] theorem loose_nil : loose [] = 0 := rfl

@[simp] theorem loose_append (a b : List Text) : loose (a ++ b) = loose a + loose b := by
  simp [loose]

/-- The text leaves so many square brackets open. -/
def Leaves (n : Nat) (t : Text) : Prop :=
  track (.plain, []) t = some (.plain, List.replicate n ']')

namespace Leaves

theorem ofClosed {t : Text} (closed : Closed t) : Leaves 0 t := closed

theorem ofName {t : Text} (name : NameLike t) : Leaves 0 t :=
  name.closed

theorem append {m n : Nat} {a b : Text} (first : Leaves m a) (second : Leaves n b) :
    Leaves (m + n) (a ++ b) := by
  have behind := track_below second (List.replicate m ']')
  rw [List.nil_append, List.replicate_append_replicate, Nat.add_comm] at behind
  rw [Leaves, track_append_of first]
  exact behind

/-- Brackets around a text that does what a balanced one does. -/
theorem bracketed {t u : Text} (holds : Text.balanced t = true)
    (same : track (.plain, []) u = track (.plain, []) t) :
    Leaves (loose [t]) ('[' :: (u ++ [']'])) := by
  obtain ⟨s, reached, outside⟩ := balanced_iff.mp holds
  have inside := track_below (same.trans reached) [']']
  rw [List.nil_append] at inside
  rw [Leaves, track_cons, show turn (.plain, []) '[' = some (.plain, [']']) from rfl,
    Option.bind_some, track_append_of inside]
  cases s with
  | plain =>
    have none_open : loose [t] = 0 := loose_eq_zero.mpr fun u member => by
      obtain rfl := List.mem_singleton.mp member
      exact reached
    rw [none_open]
    rfl
  | escaped =>
    have one_open : loose [t] = 1 := by simp [loose, Closed, reached]
    rw [one_open]
    rfl
  | quoted => cases outside
  | quotedEscaped => cases outside

/-- A name and a dash in front leave nothing open. -/
theorem dashed {n : Nat} {root t : Text} (name : NameLike root) (rest : Leaves n t) :
    Leaves n (root ++ '-' :: t) := by
  have lead := ofName (name.append (.cons (c := '-') (a := []) (by decide) (by simp [NameLike])))
  simpa using lead.append rest

theorem balanced_iff {n : Nat} {t : Text} (leaves : Leaves n t) : Text.balanced t = true ↔ n = 0 := by
  rw [Text.balanced_iff, leaves]
  constructor
  · rintro ⟨s, same, -⟩
    simpa using (Prod.mk.inj (Option.some.inj same)).2
  · rintro rfl
    exact ⟨.plain, rfl, rfl⟩

theorem closed_iff {n : Nat} {t : Text} (leaves : Leaves n t) : Closed t ↔ n = 0 := by
  constructor
  · exact fun closed => leaves.balanced_iff.mp closed.balanced
  · rintro rfl
    exact leaves

end Leaves

/-- The text closes a bracket that is not the one to be closed next. -/
def Jams (t : Text) : Prop := ∀ closers, track (.plain, closers) t = none

theorem Jams.append {a : Text} (jams : Jams a) (b : Text) : Jams (a ++ b) := by
  intro closers
  rw [track_append, jams closers, Option.bind_none]

theorem Leaves.append_jams {n : Nat} {a b : Text} (leaves : Leaves n a) (jams : Jams b) :
    Jams (a ++ b) := by
  intro closers
  have behind : track (.plain, closers) a = some (.plain, List.replicate n ']' ++ closers) := by
    simpa using track_below leaves closers
  rw [track_append_of behind, jams]

/-- Pieces of which each leaves brackets open or jams are balanced together only
if each of them is closed. -/
theorem balanced_pieces {sep : Char} (neutral : Neutral sep) {pieces : List Text}
    (each : ∀ piece ∈ pieces, (∃ n, Leaves n piece) ∨ Jams piece) :
    Text.balanced (joinWith [sep] pieces) = true ↔ ∀ piece ∈ pieces, Closed piece := by
  constructor
  · suffices whole : (∃ n, Leaves n (joinWith [sep] pieces) ∧ (n = 0 → ∀ piece ∈ pieces, Closed piece)) ∨
        Jams (joinWith [sep] pieces) by
      rintro holds
      rcases whole with ⟨n, leaves, closed⟩ | jams
      · exact closed (leaves.balanced_iff.mp holds)
      · obtain ⟨s, reached, -⟩ := balanced_iff.mp holds
        rw [jams []] at reached
        cases reached
    induction pieces with
    | nil => exact .inl ⟨0, rfl, by simp⟩
    | cons a pieces ih =>
      have others := ih fun piece member => each piece (by simp [member])
      rcases each a (by simp) with ⟨m, first⟩ | jams
      · cases pieces with
        | nil =>
          refine .inl ⟨m, by simpa [joinWith, List.intercalate] using first, ?_⟩
          simpa using first.closed_iff.mpr
        | cons b pieces =>
          have colon : Leaves 0 [sep] := .ofClosed (closed_neutral neutral)
          rw [joinWith_cons_cons]
          rcases others with ⟨n, rest, closed⟩ | jams
          · refine .inl ⟨m + n, ?_, fun none_open => ?_⟩
            · simpa using first.append (colon.append rest)
            · obtain ⟨rfl, rfl⟩ : m = 0 ∧ n = 0 := by omega
              exact List.forall_mem_cons.mpr ⟨first, closed rfl⟩
          · exact .inr (first.append_jams (colon.append_jams jams))
      · cases pieces with
        | nil => exact .inr (by simpa [joinWith, List.intercalate] using jams)
        | cons b pieces =>
          rw [joinWith_cons_cons]
          exact .inr (jams.append _)
  · exact fun closed => (closed_joinWith neutral closed).balanced

end AtomicCss
