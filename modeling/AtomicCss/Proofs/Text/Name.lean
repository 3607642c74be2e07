import AtomicCss.Proofs.Text.Segments

/-! The characters of roots, names and named values. None of them means
anything to the readers of brackets and separators, so a text of such characters
is never cut and never hides what follows it. -/
namespace AtomicCss.Text

theorem isUpper_iff {c : Char} : c.isUpper = true ↔ 'A'.val ≤ c.val ∧ c.val ≤ 'Z'.val :=
  decide_eq_true_iff

theorem isLower_iff {c : Char} : c.isLower = true ↔ 'a'.val ≤ c.val ∧ c.val ≤ 'z'.val := by
  show (decide ('a'.val ≤ c.val) && decide (c.val ≤ 'z'.val)) = true ↔ _
  rw [Bool.and_eq_true, decide_eq_true_eq, decide_eq_true_eq]

theorem isAlphanum_iff {c : Char} :
    c.isAlphanum = true ↔ (c.isUpper = true ∨ c.isLower = true) ∨ c.isDigit = true := by
  show ((c.isUpper || c.isLower) || c.isDigit) = true ↔ _
  rw [Bool.or_eq_true, Bool.or_eq_true]

theorem isAlphanum_of_lower {c : Char} (lower : c.isLower = true) : c.isAlphanum = true :=
  isAlphanum_iff.mpr (.inl (.inr lower))

theorem isDigits_iff {t : Text} : isDigits t = true ↔ t ≠ [] ∧ ∀ c ∈ t, c.isDigit = true := by
  simp [isDigits]

theorem toLower_of_not_upper {c : Char} (other : ¬ ('A'.val ≤ c.val ∧ c.val ≤ 'Z'.val)) :
    c.toLower = c := dif_neg other

def isNameChar (c : Char) : Bool :=
  c.isAlphanum || c == '@' || c == '-' || c == '_' || c == '.' || c == '%'

/-- A text of characters that occur in names. -/
def NameLike (t : Text) : Prop := ∀ c ∈ t, isNameChar c = true

theorem ne_of_isNameChar {c d : Char} (name : isNameChar c = true) (other : isNameChar d = false) :
    c ≠ d := by
  rintro rfl
  simp [name] at other

theorem neutral_of_isNameChar {c : Char} (name : isNameChar c = true) : Neutral c :=
  neutral_of_class (p := isNameChar) rfl name

theorem visible_of_isNameChar {c : Char} (name : isNameChar c = true) : isBlank c = false := by
  have range : 37 ≤ c.toNat ∧ c.toNat ≤ 122 := by
    simp only [isNameChar, isAlphanum_iff, isUpper_iff, isLower_iff, Char.isDigit, Bool.or_eq_true,
      Bool.and_eq_true, decide_eq_true_eq, beq_iff_eq, ge_iff_le,
      UInt32.le_iff_toNat_le] at name
    rcases name with ((((((upper | lower) | digit) | rfl) | rfl) | rfl) | rfl) | rfl
    · exact ⟨Nat.le_trans (by decide) upper.1, Nat.le_trans upper.2 (by decide)⟩
    · exact ⟨Nat.le_trans (by decide) lower.1, Nat.le_trans lower.2 (by decide)⟩
    · exact ⟨Nat.le_trans (by decide) digit.1, Nat.le_trans digit.2 (by decide)⟩
    all_goals decide
  simp [isBlank]
  omega

namespace NameLike

variable {a b : Text}

theorem append (first : NameLike a) (second : NameLike b) : NameLike (a ++ b) := by
  intro c member
  rcases List.mem_append.mp member with member | member
  · exact first c member
  · exact second c member

theorem cons {c : Char} (head : isNameChar c = true) (rest : NameLike a) : NameLike (c :: a) := by
  intro d member
  rcases List.mem_cons.mp member with rfl | member
  · exact head
  · exact rest d member

theorem not_mem (name : NameLike a) {c : Char} (outside : isNameChar c = false) : c ∉ a :=
  fun member => ne_of_isNameChar (name c member) outside rfl

theorem solid (name : NameLike a) {sep : Char} (outside : isNameChar sep = false) : Solid sep a :=
  Solid.ofNeutral fun c member =>
    ⟨neutral_of_isNameChar (name c member), ne_of_isNameChar (name c member) outside⟩

theorem closed (name : NameLike a) : Closed a :=
  closed_of_neutral fun c member => neutral_of_isNameChar (name c member)

theorem count_eq (name : NameLike a) : a.count '[' = 0 :=
  List.count_eq_zero.mpr (name.not_mem (by decide))

theorem head_ne (name : NameLike a) {c : Char} (outside : isNameChar c = false) :
    a.head? ≠ some c := by
  intro head
  exact name.not_mem outside (List.mem_of_mem_head? head)

/-- A text that begins with a name does not begin with a bracket. -/
theorem leads (name : NameLike a) (some_left : a ≠ []) (rest : Text) :
    a ++ rest ≠ [] ∧ (a ++ rest).head? ≠ some '[' := by
  obtain ⟨d, b, rfl⟩ := List.exists_cons_of_ne_nil some_left
  exact ⟨List.cons_ne_nil d _, name.head_ne (c := '[') (by decide)⟩

theorem getLast_ne (name : NameLike a) {c : Char} (outside : isNameChar c = false) :
    a.getLast? ≠ some c := by
  intro last
  exact name.not_mem outside (List.mem_of_getLast? last)

end NameLike
end AtomicCss.Text
