import AtomicCss.Migration.BareValue
import AtomicCss.Proofs.Candidate.Printing

/-! A value that may do without its brackets. Its characters mean nothing to the
reader of brackets, so the utility that is read where it was written has the text
of the modifier as its only text between brackets. -/
namespace AtomicCss.Migration
open Text UtilityTerm

theorem promoteValue_eq_some {system : DesignSystem} {c promoted : Candidate}
    (found : promoteValue? system c = some promoted) :
    ∃ named, withNamedValue? c = some named ∧
      system.parseCandidate (system.printCandidate named) = some promoted ∧
      promoted.variants.map Variant.print = c.variants.map Variant.print ∧
      promoted.important = c.important := by
  obtain ⟨named, value, found⟩ := Option.bind_eq_some_iff.mp found
  obtain ⟨again, read, found⟩ := Option.bind_eq_some_iff.mp found
  split at found
  · rename_i kept
    obtain ⟨nodes, -, found⟩ := Option.bind_eq_some_iff.mp found
    split at found
    · cases found
      exact ⟨named, value, read, kept.1, kept.2⟩
    · cases found
  · cases found

theorem withNamedValue_eq_some {c named : Candidate} (found : withNamedValue? c = some named) :
    ∃ root t m negative, c.base = .functional root (some (.arbitrary t none)) m negative ∧
      isBareValue t = true ∧
      named = { c with base := .functional root (some (.named t)) m negative } := by
  unfold withNamedValue? at found
  split at found
  · rename_i root t m negative based
    split at found
    · rename_i bare
      cases found
      exact ⟨root, t, m, negative, based, bare, rfl⟩
    · cases found
  · cases found

variable {root t : Text} {m : Option Argument} {negative : Bool}

theorem bare_char (bare : isBareValue t = true) : t ≠ [] ∧ ∀ c ∈ t,
    Neutral c ∧ isBlank c = false ∧ c ≠ '[' ∧ c ≠ ':' := by
  simp only [isBareValue, Bool.and_eq_true, Bool.not_eq_true', List.isEmpty_eq_false_iff,
    List.all_eq_true] at bare
  refine ⟨bare.1, fun c member => ?_⟩
  have part := bare.2 c member
  simp only [Bool.or_eq_true, beq_iff_eq] at part
  rcases part with (((alnum | rfl) | rfl) | rfl) | rfl
  · have name : Text.isNameChar c = true := by simp [Text.isNameChar, alnum]
    exact ⟨neutral_of_isNameChar name, visible_of_isNameChar name, ne_of_isNameChar name (by decide),
      ne_of_isNameChar name (by decide)⟩
  all_goals decide

/-- A value without brackets is what its brackets would be read as. -/
theorem reading_of_bare (bare : isBareValue t = true) : ValueReading t none := by
  obtain ⟨some_left, chars⟩ := bare_char bare
  have closed : Closed t := closed_of_neutral fun c member => (chars c member).1
  have visible {c : Char} (member : c ∈ t) : isBlank c = false := (chars c member).2.1
  refine ⟨⟨closed.balanced, ?_, some_left⟩, by simp, fun _ => ?_⟩
  · exact trim_eq_self (fun c head => visible (List.mem_of_mem_head? head))
      fun c last => visible (List.mem_of_getLast? last)
  · refine Arbitrary.hintless_iff.mpr fun hint rest _ same => ?_
    exact (chars ':' (by simp [same])).2.2.2 rfl

theorem closed_of_bare (bare : isBareValue t = true) : Closed t :=
  (closed_iff_not_dangling (reading_of_bare bare).reading.balanced).mpr
    (not_dangling_of_plain fun member => absurd ((bare_char bare).2 _ member).1 (by decide))

/-- The written form of the utility without its modifier. -/
def namedMain (root t : Text) (negative : Bool) : Text :=
  (if negative then ['-'] else []) ++ (root ++ '-' :: t)

theorem namedMain_plain (shape : UtilityTerm.isRoot root = true) (bare : isBareValue t = true) :
    Closed (namedMain root t negative) ∧ '[' ∉ namedMain root t negative := by
  have name := (UtilityTerm.nameLike_of_isRoot shape).1
  have dash : Closed ['-'] := closed_neutral (by decide)
  have lead : Closed (if negative then ['-'] else []) := by cases negative <;> rfl
  refine ⟨lead.append (name.closed.append
    (dash.append (closed_of_bare bare))), fun member => ?_⟩
  unfold namedMain at member
  rcases List.mem_append.mp member with sign | rest
  · cases negative <;> simp at sign
  · rcases List.mem_append.mp rest with inside | rest
    · exact name.not_mem (by decide) inside
    · rcases List.mem_cons.mp rest with dash | inside
      · cases dash
      · exact ((bare_char bare).2 _ inside).2.2.1 rfl

theorem print_named (root t : Text) (m : Option Argument) (negative : Bool) :
    print (.functional root (some (.named t)) m negative) =
      namedMain root t negative ++ Argument.printModifier m := by
  rw [print_functional]
  rfl

/-- Such a utility begins with a dash or a letter. -/
theorem namedMain_head (t : Text) (negative : Bool) (shape : UtilityTerm.isRoot root = true) :
    ∃ c rest, namedMain root t negative = c :: rest ∧ c ≠ '[' ∧ c ≠ '!' := by
  obtain ⟨name, some_left, -⟩ := UtilityTerm.nameLike_of_isRoot shape
  obtain ⟨c, rest, rfl⟩ := List.exists_cons_of_ne_nil some_left
  cases negative
  · exact ⟨c, rest ++ '-' :: t, rfl, ne_of_isNameChar (name c (by simp)) (by decide),
      ne_of_isNameChar (name c (by simp)) (by decide)⟩
  · exact ⟨'-', c :: rest ++ '-' :: t, rfl, by decide, by decide⟩

/-- A bracket in such a utility stands in its modifier, behind the slash and the bracket that open it. -/
theorem bracket_of_named (shape : UtilityTerm.isRoot root = true) (bare : isBareValue t = true)
    {behind : Text} (modifier : ModifierSpelt behind m) {a b : Text}
    (same : namedMain root t negative ++ Argument.printModifier m = a ++ '[' :: b) (absent : '[' ∉ a) :
    ∃ v, m = some (.arbitrary v) ∧ a = namedMain root t negative ++ ['/'] ∧
      b = Arbitrary.print v ++ [']'] := by
  have plain : '[' ∉ namedMain root t negative := (namedMain_plain shape bare).2
  have member : '[' ∈ namedMain root t negative ++ Argument.printModifier m := by simp [same]
  cases modifier with
  | none => simp [Argument.printModifier, plain] at member
  | named known =>
    have name := (nameLike_of_isNamedModifier known).1.not_mem (c := '[') (by decide)
    simp [Argument.printModifier, plain, name] at member
  | @arbitrary inner v =>
    have first : namedMain root t negative ++ ['/'] ++ '[' :: (Arbitrary.print v ++ [']']) =
        a ++ '[' :: b := by
      rw [← same]
      simp [Argument.printModifier]
    obtain ⟨front, back⟩ := first_unique first (by simp [plain]) absent
    exact ⟨v, rfl, front.symm, back.symm⟩

/-- A modifier that is read behind a text without brackets is the one that was written. -/
theorem closed_of_spelt_modifier (shape : UtilityTerm.isRoot root = true) (bare : isBareValue t = true)
    {behind : Text} (modifier : ModifierSpelt behind m) (closed : ∀ v ∈ Argument.texts m, Closed v)
    {ahead read : Text} {m' : Option Argument} (spelt : ModifierSpelt read m') (plain : '[' ∉ ahead)
    (whole : namedMain root t negative ++ Argument.printModifier m = ahead ++ read) :
    ∀ v ∈ Argument.texts m', Closed v := by
  cases spelt with
  | none => simp [Argument.texts]
  | named => simp [Argument.texts]
  | @arbitrary inner w inside decoded =>
    have cut : namedMain root t negative ++ Argument.printModifier m =
        ahead ++ ['/'] ++ '[' :: (inner ++ [']']) := by
      rw [whole]
      simp
    obtain ⟨v, rfl, -, same⟩ := bracket_of_named shape bare modifier cut (by simp [plain])
    obtain rfl := List.append_cancel_right same
    have reading := modifier.reading v (by simp [Argument.texts])
    rw [Arbitrary.decodeTrimmed_print reading] at decoded
    cases decoded
    simpa [Argument.texts] using Arbitrary.closed_reprint reading (closed v (by simp [Argument.texts]))

/-- Where a named value is written, only the modifier has a text between brackets. -/
theorem closed_of_spelt_named (shape : UtilityTerm.isRoot root = true) (bare : isBareValue t = true)
    {behind : Text} (modifier : ModifierSpelt behind m)
    (closed : ∀ v ∈ Argument.texts m, Closed v) {u : UtilityTerm}
    (spelt : UtilityTerm.Spelt (namedMain root t negative ++ Argument.printModifier m) u) :
    ∀ v ∈ u.texts, Closed v := by
  generalize whole : namedMain root t negative ++ Argument.printModifier m = s at spelt
  have name {a : Text} (like : NameLike a) : '[' ∉ a := like.not_mem (by decide)
  cases spelt with
  | property =>
    obtain ⟨c, rest, head, other, -⟩ := namedMain_head t negative shape
    rw [head] at whole
    exact absurd (List.cons.inj whole).1 other
  | @main negative' main rest m' _ main' modifier' =>
    have sign : '[' ∉ (if negative' then ['-'] else []) := by cases negative' <;> simp
    have closed' (plain : '[' ∉ main) : ∀ v ∈ Argument.texts m', Closed v :=
      closed_of_spelt_modifier shape bare modifier closed modifier' (by simp [plain, sign]) whole
    cases main' with
    | static shape' => simp [texts]
    | bare shape' => exact closed' (name (UtilityTerm.nameLike_of_isRoot shape').1)
    | named _ shape' known =>
      exact closed' (name ((UtilityTerm.nameLike_of_isRoot shape').1.append
        (.cons (by decide) (nameLike_of_isNamedValue known).1)))
    | @arbitrary root' inner v _ shape' inside read =>
      have cut : namedMain root t negative ++ Argument.printModifier m =
          (if negative' then ['-'] else []) ++ root' ++ ['-'] ++ '[' :: (inner ++ [']'] ++ rest) := by
        rw [whole]
        simp
      obtain ⟨-, -, same, -⟩ := bracket_of_named shape bare modifier cut
        (by simp [sign, name (UtilityTerm.nameLike_of_isRoot shape').1])
      have last := congrArg List.getLast? same
      simp at last

end AtomicCss.Migration
