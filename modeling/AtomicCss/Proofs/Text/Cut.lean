import AtomicCss.Proofs.Text.Segments

/-! What each way of cutting a text says about the text: the parts and what
stood between them make up the whole again, and no other parts do. -/
namespace AtomicCss.Text

theorem stripStart_eq_some {lead t rest : Text} :
    stripStart? lead t = some rest ↔ t = lead ++ rest := by
  unfold stripStart?
  constructor
  · intro found
    split at found
    · rename_i leads
      obtain ⟨behind, rfl⟩ := List.isPrefixOf_iff_prefix.mp leads
      simpa using found
    · cases found
  · rintro rfl
    simp

theorem stripEnd_eq_some {tail t front : Text} :
    stripEnd? tail t = some front ↔ t = front ++ tail := by
  unfold stripEnd?
  constructor
  · intro found
    split at found
    · rename_i ends
      obtain ⟨before, rfl⟩ := List.isSuffixOf_iff_suffix.mp ends
      simpa using found
    · cases found
  · rintro rfl
    simp

theorem stripStart_eq_none {lead t : Text} (other : ¬ lead <+: t) : stripStart? lead t = none := by
  simp [stripStart?, other]

theorem stripEnd_eq_none {tail t : Text} (other : ¬ tail <:+ t) : stripEnd? tail t = none := by
  simp [stripEnd?, other]

theorem splitFirst_eq_some {sep : Char} {t a b : Text} :
    splitFirst sep t = some (a, b) ↔ t = a ++ sep :: b ∧ sep ∉ a := by
  induction t generalizing a with
  | nil => simp [splitFirst]
  | cons c rest ih =>
    rw [splitFirst]
    split
    · rename_i same
      subst same
      cases a with
      | nil => simp
      | cons d a => simp; intro same; simp [same]
    · rename_i other
      constructor
      · intro found
        obtain ⟨⟨a', b'⟩, found, same⟩ := Option.map_eq_some_iff.mp found
        cases same
        obtain ⟨rfl, absent⟩ := ih.mp found
        exact ⟨rfl, by simp [absent, Ne.symm other]⟩
      · rintro ⟨whole, absent⟩
        cases a with
        | nil =>
          cases whole
          contradiction
        | cons d a =>
          cases whole
          rw [ih.mpr ⟨rfl, fun member => absent (by simp [member])⟩]
          rfl

/-- A text has one first occurrence of a character. -/
theorem splitFirst_eq_none {sep : Char} {t : Text} : splitFirst sep t = none ↔ sep ∉ t := by
  constructor
  · intro uncut member
    obtain ⟨a, b, whole, first⟩ := List.eq_append_cons_of_mem member
    rw [splitFirst_eq_some.mpr ⟨whole, first⟩] at uncut
    cases uncut
  · intro absent
    cases found : splitFirst sep t with
    | none => rfl
    | some parts =>
      have whole := (splitFirst_eq_some.mp found).1
      exact absurd (by simp [whole]) absent

theorem first_unique {sep : Char} {a b a' b' : Text} (same : a ++ sep :: b = a' ++ sep :: b')
    (absent : sep ∉ a) (absent' : sep ∉ a') : a = a' ∧ b = b' := by
  have first : splitFirst sep (a ++ sep :: b) = some (a, b) := splitFirst_eq_some.mpr ⟨rfl, absent⟩
  have second : splitFirst sep (a ++ sep :: b) = some (a', b') :=
    splitFirst_eq_some.mpr ⟨same, absent'⟩
  rw [first] at second
  exact Prod.mk.inj (Option.some.inj second)

/-- A text that is cut somewhere is cut at the first separator or behind it. -/
theorem cut_behind_first {sep : Char} {lead behind root rest : Text} (absent : sep ∉ lead)
    (whole : lead ++ sep :: behind = root ++ sep :: rest) : root = lead ∨ lead ++ [sep] <+: root := by
  rcases List.append_eq_append_iff.mp whole with ⟨a, rfl, same⟩ | ⟨a, rfl, same⟩
  · cases a with
    | nil => exact .inl (by simp)
    | cons c a =>
      obtain ⟨rfl, -⟩ := List.cons.inj same
      exact .inr ⟨a, by simp⟩
  · cases a with
    | nil => exact .inl (by simp)
    | cons c a =>
      obtain ⟨rfl, -⟩ := List.cons.inj same
      simp at absent

/-- What is not cut itself goes on in the first piece of what stands behind it. -/
theorem splitWhere_front {p : Char → Bool} {w rest : Text} (uncut : ∀ c ∈ w, p c = false) {piece : Text}
    {pieces : List Text} (cut : splitWhere p rest = piece :: pieces) :
    splitWhere p (w ++ rest) = (w ++ piece) :: pieces := by
  induction w with
  | nil => exact cut
  | cons c w ih =>
    obtain ⟨first, later⟩ := List.forall_mem_cons.mp uncut
    rw [List.cons_append, splitWhere, if_neg (by simp [first]), ih later]
    rfl

section

variable {sep : Char} {a : Text} (absent : sep ∉ a)

include absent

theorem uncut_of_absent : ∀ c ∈ a, (c == sep) = false :=
  fun _ member => beq_eq_false_iff_ne.mpr fun same => absent (same ▸ member)

theorem fields_absent : fields sep a = [a] := by
  have alone := splitWhere_front (uncut_of_absent absent) (show splitWhere (· == sep) [] = [[]] from rfl)
  rwa [List.append_nil] at alone

theorem fields_first (b : Text) : fields sep (a ++ sep :: b) = a :: fields sep b := by
  have cut : splitWhere (· == sep) (sep :: b) = [] :: fields sep b := by simp [fields, splitWhere]
  have whole := splitWhere_front (uncut_of_absent absent) cut
  rwa [List.append_nil] at whole

end

theorem mem_splits {sep : Char} {t a b : Text} : (a, b) ∈ splits sep t ↔ t = a ++ sep :: b := by
  induction t generalizing a with
  | nil => simp [splits]
  | cons c rest ih =>
    simp only [splits, List.mem_append, List.mem_map, Prod.mk.injEq, Prod.exists]
    constructor
    · rintro (⟨a', b', member, rfl, rfl⟩ | here)
      · rw [ih.mp member, List.cons_append]
      · split at here
        · rename_i same
          obtain ⟨rfl, rfl⟩ := Prod.mk.inj (List.mem_singleton.mp here)
          rw [same, List.nil_append]
        · cases here
    · intro whole
      cases a with
      | nil =>
        obtain ⟨rfl, rfl⟩ := List.cons.inj whole
        exact .inr (by simp)
      | cons d a =>
        obtain ⟨rfl, rest⟩ := List.cons.inj whole
        exact .inl ⟨a, b, ih.mpr rest, rfl, rfl⟩

theorem splits_eq_nil {sep : Char} {t : Text} : splits sep t = [] ↔ sep ∉ t := by
  rw [List.eq_nil_iff_forall_not_mem]
  constructor
  · intro absent member
    obtain ⟨a, b, whole⟩ := List.append_of_mem member
    exact absent (a, b) (mem_splits.mpr whole)
  · rintro absent ⟨a, b⟩ member
    exact absent (by simp [mem_splits.mp member])

theorem splitLast_eq_none {sep : Char} {t : Text} : splitLast sep t = none ↔ sep ∉ t := by
  rw [splitLast, List.head?_eq_none_iff, splits_eq_nil]

theorem splitLast_cons (sep c : Char) (rest : Text) : splitLast sep (c :: rest) =
    ((splitLast sep rest).map fun cut => (c :: cut.1, cut.2)).or
      (if c = sep then some ([], rest) else none) := by
  simp only [splitLast, splits]
  cases splits sep rest with
  | nil => split <;> rfl
  | cons first others => rfl

theorem splitLast_sound {sep : Char} {t a b : Text} (found : splitLast sep t = some (a, b)) :
    t = a ++ sep :: b ∧ sep ∉ b := by
  induction t generalizing a with
  | nil => cases found
  | cons c rest ih =>
    rw [splitLast_cons] at found
    cases later : splitLast sep rest with
    | none =>
      rw [later, Option.map_none, Option.none_or] at found
      split at found
      · rename_i here
        cases found
        exact ⟨by simp [here], splitLast_eq_none.mp later⟩
      · cases found
    | some cut =>
      rw [later, Option.map_some, Option.some_or] at found
      cases found
      obtain ⟨whole, absent⟩ := ih later
      exact ⟨by rw [whole, List.cons_append], absent⟩

theorem last_unique {sep : Char} {a b a' b' : Text} (same : a ++ sep :: b = a' ++ sep :: b')
    (absent : sep ∉ b) (absent' : sep ∉ b') : a = a' ∧ b = b' := by
  have turned : b.reverse ++ sep :: a.reverse = b'.reverse ++ sep :: a'.reverse := by
    simpa using congrArg List.reverse same
  obtain ⟨back, front⟩ := first_unique turned (by simpa using absent) (by simpa using absent')
  exact ⟨List.reverse_inj.mp front, List.reverse_inj.mp back⟩

theorem splitLast_eq_some {sep : Char} {t a b : Text} :
    splitLast sep t = some (a, b) ↔ t = a ++ sep :: b ∧ sep ∉ b := by
  constructor
  · exact splitLast_sound
  · rintro ⟨whole, absent⟩
    cases found : splitLast sep t with
    | none => exact absurd (by simp [whole]) (splitLast_eq_none.mp found)
    | some cut =>
      obtain ⟨whole', absent'⟩ := splitLast_sound found
      obtain ⟨rfl, rfl⟩ := last_unique (whole.symm.trans whole') absent absent'
      rfl

theorem splitLastText_whole {part t a b : Text} (found : splitLastText part t = some (a, b)) :
    t = a ++ (part ++ b) := by
  induction t generalizing a with
  | nil => cases found
  | cons c rest ih =>
    rw [splitLastText] at found
    split at found
    · rename_i later
      cases found
      exact congrArg (c :: ·) (ih later)
    · obtain ⟨behind, stripped, same⟩ := Option.map_eq_some_iff.mp found
      cases same
      rw [List.nil_append]
      exact stripStart_eq_some.mp stripped

theorem splitLastText_eq_none {part t : Text} (absent : ¬ part <:+: t) : splitLastText part t = none := by
  cases found : splitLastText part t with
  | none => rfl
  | some parts =>
    refine absurd ⟨parts.1, parts.2, ?_⟩ absent
    rw [List.append_assoc]
    exact (splitLastText_whole found).symm

/-- The last place is found where the part does not stand once more further on. -/
theorem splitLastText_eq_some {c : Char} {part b : Text} (absent : ¬ c :: part <:+: part ++ b) (a : Text) :
    splitLastText (c :: part) (a ++ (c :: part ++ b)) = some (a, b) := by
  induction a with
  | nil =>
    rw [List.nil_append, List.cons_append, splitLastText, splitLastText_eq_none absent]
    simp [stripStart?]
  | cons d a ih =>
    rw [List.cons_append, splitLastText, ih]

theorem joinWith_consHead (sep : Text) (c : Char) {pieces : List Text} (some_piece : pieces ≠ []) :
    joinWith sep (consHead c pieces) = c :: joinWith sep pieces := by
  cases pieces with
  | nil => contradiction
  | cons piece pieces =>
    cases pieces with
    | nil => simp [consHead, joinWith, List.intercalate]
    | cons next pieces => simp [consHead, joinWith_cons_cons]

/-- Joining undoes splitting. -/
theorem joinWith_segment (sep : Char) (t : Text) : joinWith [sep] (segment sep t) = t := by
  suffices general : ∀ s closers, joinWith [sep] (segmentFrom sep s closers t) = t from
    general .plain []
  induction t with
  | nil => simp [segmentFrom, joinWith, List.intercalate]
  | cons c rest ih =>
    intro s closers
    rw [segmentFrom]
    split
    · rename_i separates
      simp only [Bool.and_eq_true, beq_iff_eq] at separates
      have whole := ih (s.next c) closers
      cases pieces : segmentFrom sep (s.next c) closers rest with
      | nil => exact absurd pieces (segmentFrom_ne_nil _ _ _ _)
      | cons piece pieces' =>
        rw [pieces] at whole
        rw [joinWith_cons_cons, whole, separates.1.2]
        rfl
    · rw [joinWith_consHead _ _ (segmentFrom_ne_nil _ _ _ _), ih]

end AtomicCss.Text
