import AtomicCss.Proofs.DataType.Calls

/-! Positions. Their parts are told apart by blanks wherever these stand, also among the arguments
of a call. So a call with blanks in it is no part of a position, and it becomes one where canonical
spacing takes all of them away. -/
namespace AtomicCss.DataType
open Text Value

theorem words_blank {c : Char} (blank : isBlank c = true) (t : Text) : words (c :: t) = words t := by
  simp [words, splitWhere, blank]

theorem words_before {before : Text} (blank : ∀ c ∈ before, isBlank c = true) (t : Text) :
    words (before ++ t) = words t := by
  induction before with
  | nil => rfl
  | cons c before ih =>
    obtain ⟨first, later⟩ := List.forall_mem_cons.mp blank
    rw [List.cons_append, words_blank first, ih later]

/-- Nothing, or a blank. -/
def EndsWord (rest : Text) : Prop := ∀ c, rest.head? = some c → isBlank c = true

theorem words_word {w rest : Text} (some_left : w ≠ []) (solid : ∀ c ∈ w, isBlank c = false)
    (ends : EndsWord rest) : words (w ++ rest) = w :: words rest := by
  cases rest with
  | nil =>
    rw [words, splitWhere_front solid (show splitWhere isBlank [] = [[]] from rfl)]
    simp [words, splitWhere, some_left]
  | cons c rest =>
    have blank := ends c rfl
    have cut : splitWhere isBlank (c :: rest) = [] :: splitWhere isBlank rest := by simp [splitWhere, blank]
    rw [words_blank blank, words, splitWhere_front solid cut]
    simp [words, some_left]

/-- A text is blank, or its first word is found. -/
theorem words_cases (t : Text) : (∀ c ∈ t, isBlank c = true) ∨
    ∃ before w rest, t = before ++ (w ++ rest) ∧ (∀ c ∈ before, isBlank c = true) ∧ w ≠ [] ∧
      (∀ c ∈ w, isBlank c = false) ∧ EndsWord rest := by
  have whole := List.takeWhile_append_dropWhile (p := isBlank) (l := t)
  have whole' := List.takeWhile_append_dropWhile (p := fun c => !isBlank c) (l := t.dropWhile isBlank)
  have blank : ∀ c ∈ t.takeWhile isBlank, isBlank c = true := fun c member => List.mem_takeWhile_imp member
  cases behind : t.dropWhile isBlank with
  | nil =>
    rw [behind, List.append_nil] at whole
    exact .inl (whole ▸ blank)
  | cons c rest =>
    have visible : isBlank c = false := by
      have first := List.head?_dropWhile_not isBlank t
      rw [behind] at first
      simpa using first
    refine .inr ⟨_, _, _, by rw [whole', whole], blank, ?_, fun d member => ?_, fun d head => ?_⟩
    · simp [behind, visible]
    · simpa using List.mem_takeWhile_imp member
    · have first := List.head?_dropWhile_not (fun c => !isBlank c) (t.dropWhile isBlank)
      rw [head] at first
      simpa using first

theorem words_trim (t : Text) : words (trim t) = words t := by
  obtain ⟨before, behind, parts, blank, blank'⟩ := trim_parts t
  have ends (u : Text) : words (u ++ behind) = words u := by
    induction size : u.length using Nat.strong_induction_on generalizing u with
    | h _ ih =>
    rcases words_cases u with all | ⟨front, w, rest, rfl, blank, some_left, solid, ends⟩
    · have front := words_before all behind
      have whole := words_before all []
      have alone := words_before blank' []
      rw [List.append_nil] at whole alone
      rw [front, whole, alone]
    · have shorter : rest.length < (front ++ (w ++ rest)).length := by
        have longer := List.length_pos_of_ne_nil some_left
        simp only [List.length_append]
        omega
      have ends' : EndsWord (rest ++ behind) := by
        intro c head
        cases rest with
        | nil => exact blank' c (List.mem_of_mem_head? head)
        | cons d rest => exact ends c head
      rw [List.append_assoc, List.append_assoc, words_before blank, words_before blank,
        words_word some_left solid ends', words_word some_left solid ends, ih _ (size ▸ shorter) rest rfl]
  conv => rhs; rw [parts, words_before blank, ends]

theorem isPosition_trim (t : Text) : isPosition (trim t) = isPosition t := by
  rw [isPosition, isPosition, words_trim]

/-- The parts of positions that are no calls. -/
def isPlace (t : Text) : Bool :=
  positionKeywords.contains t || isPercentage t || (isZero t || hasUnit lengthUnits t)

theorem singleWord_of_isPlace {t : Text} (place : isPlace t = true) : SingleWord t := by
  simp only [isPlace, Bool.or_eq_true] at place
  rcases place with (keyword | percentage) | literal
  · have known := List.contains_iff_mem.mp keyword
    simp only [positionKeywords, List.mem_cons, List.not_mem_nil, or_false] at known
    rcases known with rfl | rfl | rfl | rfl | rfl <;>
      exact singleWord_of_plain (.inl rfl) (by decide) (forall_of_all rfl)
  · exact singleWord_of_isPercentage percentage
  · exact singleWord_of_isLength (Bool.or_eq_true_iff.mpr literal)

theorem isPosition_iff {t : Text} : isPosition t = true ↔
    ∀ w ∈ words t, isPlace w = true ∨ callsOneOf calculations w = true := by
  rw [isPosition, List.all_eq_true]
  refine forall₂_congr fun w _ => ?_
  simp only [isPlace, isLength, Bool.or_eq_true]
  tauto

/-- Words and calls with blanks between them, where the arguments of the calls are of a kind. -/
inductive Placed (inside : List Node → Prop) : List Node → Prop
  | nil : Placed inside []
  | separator {t : Text} {ns : List Node} (blank : ∀ c ∈ t, isBlank c = true) (rest : Placed inside ns) :
    Placed inside (.separator t :: ns)
  | word {t : Text} {ns : List Node} (place : isPlace t = true) (ends : headWord ns = false)
    (rest : Placed inside ns) : Placed inside (.word t :: ns)
  | call {name : Text} {args ns : List Node} (known : Text.lower name ∈ calculations) (arguments : inside args)
    (ends : headWord ns = false) (rest : Placed inside ns) : Placed inside (.call name args :: ns)

/-- Without blanks. -/
def Unbroken (args : List Node) : Prop := ∀ c ∈ render args, isBlank c = false

/-- Without blanks in canonical spacing. -/
def Tightens (args : List Node) : Prop := Unbroken (compact [] args)

theorem headWord_parse_of_ends {rest : Text} (ends : EndsWord rest) : headWord (parse rest) = false := by
  cases rest with
  | nil => rfl
  | cons c rest =>
    obtain ⟨ns, same⟩ := here_separator 0 rest (isSeparator_blank (ends c rfl))
    rw [parse, same]
    rfl

theorem placed_padding (inside : List Node → Prop) {before : Text} (blank : ∀ c ∈ before, isBlank c = true)
    {ns : List Node} (placed : Placed inside ns) : Placed inside (padding before ++ ns) := by
  unfold padding
  split
  · exact placed
  · exact .separator blank placed

theorem isPlain_of_calculation {name : Text} (known : Text.lower name ∈ calculations) :
    ∀ c ∈ name, isPlain c = true := isPlain_of_mem (by decide) known

theorem hyphenated_calculations : ∀ k ∈ calculations, hyphenated false k = true := hyphenated_functions length

/-- The first part of a position is read as one node. -/
theorem placed_part {w rest : Text} (part : isPlace w = true ∨ callsOneOf calculations w = true)
    (solid : ∀ c ∈ w, isBlank c = false) (ends : EndsWord rest) (placed : Placed Unbroken (parse rest)) :
    w.head?.any isSeparator = false ∧ Placed Unbroken (parse (w ++ rest)) := by
  have fresh := headWord_parse_of_ends ends
  rcases part with place | calls
  · have single := singleWord_of_isPlace place
    obtain ⟨c, u, rfl⟩ := List.exists_cons_of_ne_nil single.some_left
    refine ⟨by simp [isSeparator_of_isWordChar (single.letters c (.head u))], ?_⟩
    rw [parse_word single.letters single.some_left fresh]
    exact .word place fresh placed
  · obtain ⟨name, arguments, known, complete, rfl⟩ := (callsOneOf_text_iff hyphenated_calculations).mp calls
    have letters : ∀ c ∈ name, isWordChar c = true := fun c member =>
      isWordChar_of_isNameChar (isPlain_iff.mp (isPlain_of_calculation known c member)).1
    have read : parse (name ++ '(' :: (arguments ++ [')']) ++ rest) =
        .call name (parse arguments) :: parse rest := by
      have called := congrArg Nesting.here (nest_call letters complete 0 rest)
      simpa [parse, Nesting.cons] using called
    refine ⟨?_, ?_⟩
    · cases name with
      | nil => rfl
      | cons c name => simp [isSeparator_of_isWordChar (letters c (.head name))]
    · rw [read]
      refine .call known (fun c member => solid c ?_) fresh placed
      rw [render_parse] at member
      simp [member]

/-- A position by its siblings. -/
theorem placed_of_isPosition {t : Text} (position : isPosition t = true) : Placed Unbroken (parse t) := by
  induction size : t.length using Nat.strong_induction_on generalizing t with
  | h _ ih =>
  rcases words_cases t with blank | ⟨before, w, rest, rfl, blank, some_left, solid, ends⟩
  · rw [parse_blank blank, ← List.append_nil (padding t)]
    exact placed_padding Unbroken blank .nil
  · rw [isPosition_iff, words_before blank, words_word some_left solid ends] at position
    obtain ⟨part, later⟩ := List.forall_mem_cons.mp position
    have shorter : rest.length < (before ++ (w ++ rest)).length := by
      have longer := List.length_pos_of_ne_nil some_left
      simp only [List.length_append]
      omega
    obtain ⟨other, placed⟩ :=
      placed_part part solid ends (ih rest.length (size ▸ shorter) (isPosition_iff.mpr later) rfl)
    have begins : (w ++ rest).head?.any isSeparator = false := by
      obtain ⟨c, w, rfl⟩ := List.exists_cons_of_ne_nil some_left
      exact other
    rw [parse_before blank begins]
    exact placed_padding Unbroken blank placed

namespace Placed

variable {inside : List Node → Prop} {ns : List Node}

theorem mono {inside' : List Node → Prop} (placed : Placed inside ns)
    (weaker : ∀ args, inside args → inside' args) : Placed inside' ns := by
  induction placed with
  | nil => exact .nil
  | separator blank _ ih => exact .separator blank ih
  | word place ends _ ih => exact .word place ends ih
  | call known arguments ends _ ih => exact .call known (weaker _ arguments) ends ih

theorem endsWord (placed : Placed inside ns) (filled : Filled ns) (fresh : headWord ns = false) :
    EndsWord (render ns) := by
  intro c head
  cases placed with
  | nil => simp at head
  | @separator t ns blank =>
    cases filled with | separator some_left =>
    obtain ⟨d, t, rfl⟩ := List.exists_cons_of_ne_nil some_left
    rw [render_cons, renderNode_separator, List.cons_append, List.head?_cons, Option.some.injEq] at head
    exact head ▸ blank d (.head t)
  | word => cases fresh
  | call => cases fresh

theorem parts (placed : Placed Unbroken ns) (filled : Filled ns)
    (complete : ∀ name args, .call name args ∈ ns → Complete (render args)) :
    ∀ w ∈ words (render ns), isPlace w = true ∨ callsOneOf calculations w = true := by
  induction placed with
  | nil => simp [words, splitWhere]
  | separator blank _ ih =>
    cases filled with | separator _ filled =>
    rw [render_cons, renderNode_separator, words_before blank]
    exact ih filled fun name args member => complete name args (.tail _ member)
  | @word t ns place ends placed ih =>
    cases filled with | word some_left _ filled =>
    have single := singleWord_of_isPlace place
    have solid : ∀ c ∈ t, isBlank c = false := fun c member => visible_of_isWordChar (single.letters c member)
    rw [render_cons, renderNode_word, words_word some_left solid (placed.endsWord filled ends)]
    exact List.forall_mem_cons.mpr
      ⟨.inl place, ih filled fun name args member => complete name args (.tail _ member)⟩
  | @call name args ns known arguments ends placed ih =>
    cases filled with | call filled =>
    have solid : ∀ c ∈ renderNode (.call name args), isBlank c = false := by
      intro c member
      simp only [renderNode_call, List.mem_append, List.mem_cons, List.not_mem_nil, or_false] at member
      rcases member with member | rfl | member | rfl
      · exact visible_of_isNameChar (isPlain_iff.mp (isPlain_of_calculation known c member)).1
      · rfl
      · exact arguments c member
      · rfl
    have calls : callsOneOf calculations (renderNode (.call name args)) = true :=
      (callsOneOf_text_iff hyphenated_calculations).mpr
        ⟨name, render args, known, complete name args (.head ns), by simp⟩
    rw [render_cons, words_word (by simp) solid (placed.endsWord filled ends)]
    exact List.forall_mem_cons.mpr
      ⟨.inr calls, ih filled fun name args member => complete name args (.tail _ member)⟩

theorem aligned (placed : Placed inside ns) : Aligned ns := by
  induction placed with
  | nil => exact .nil
  | separator blank _ aligned => exact .separator (List.all_eq_true.mpr blank) aligned
  | word place ends _ aligned =>
    have single := (singleWord_of_isPlace place).aligned
    cases single with | word opens operand inert => exact .word opens operand inert ends aligned
  | call known _ ends _ aligned =>
    refine .call (fun c member => ?_) ends aligned
    obtain ⟨name, other⟩ := isPlain_iff.mp (isPlain_of_calculation known c member)
    exact ⟨other, ne_of_isNameChar name (by decide)⟩

/-- A part begins with no operator that stands alone. -/
theorem spacedOperator_eq (placed : Placed inside ns) : spacedOperator ns = false := by
  by_contra spaced
  rw [Bool.not_eq_false] at spaced
  obtain ⟨op, rest, rfl, operator, -⟩ := word_of_spacedOperator spaced
  cases placed with | word place =>
  have operand := (singleWord_of_isPlace place).operand op rfl
  simp [operator] at operand

end Placed

/-- A value is a position if its siblings are words and calls without blanks. -/
theorem isPosition_iff_placed {t : Text} : isPosition t = true ↔ Placed Unbroken (parse t) := by
  refine ⟨placed_of_isPosition, fun placed => isPosition_iff.mpr ?_⟩
  have parts := placed.parts (filled_parse t) fun _ _ => (formed_parse t).complete_of_mem
  rwa [render_parse] at parts

theorem render_joined {n : Node} {ms fs : List Node} (joined : Joined n ms fs) :
    render fs = renderNode n ++ render ms := by
  cases joined <;> simp

theorem render_fused {ns ms : List Node} (fused : Fused ns ms) : render ms = render ns := by
  induction fused with
  | nil => rfl
  | word _ _ joined ih => rw [render_joined joined, ih, render_cons]
  | separator _ joined ih => rw [render_joined joined, ih, render_cons]
  | call _ _ _ inside ih => simp [inside, ih]

theorem headWord_of_kept {ns fs : List Node} (kept : Kept ns fs) : headWord ns = headWord fs := by
  cases kept <;> rfl

/-- What canonical spacing leaves of the arguments was there before. -/
theorem placed_of_kept {ns fs : List Node} (kept : Kept ns fs) (placed : Placed Unbroken fs) :
    Placed Tightens ns := by
  induction kept with
  | nil => exact .nil
  | last blank => exact .separator (List.all_eq_true.mp blank) .nil
  | word kept ih =>
    cases placed with | word place ends placed =>
    exact .word place (headWord_of_kept kept ▸ ends) (ih placed)
  | separator kept ih =>
    cases placed with | separator blank placed => exact .separator blank (ih placed)
  | call inside kept ih =>
    cases placed with | call known arguments ends placed =>
    rw [Unbroken, render_fused inside] at arguments
    exact .call known arguments (headWord_of_kept kept ▸ ends) (ih placed)

/-- Words that blanks keep apart are not joined. -/
theorem placed_of_fused {ns fs : List Node} (fused : Fused ns fs) (placed : Placed Unbroken ns) :
    Placed Unbroken fs := by
  induction fused with
  | nil => exact .nil
  | word some_left rest joined ih =>
    cases placed with | word place ends placed =>
    rw [← headWord_of_fused rest] at ends
    cases joined with
    | word => cases ends
    | name => cases ends
    | apart => exact .word place ends (ih placed)
  | separator rest joined ih =>
    cases placed with | separator blank placed =>
    cases joined with
    | separator t u ms =>
      cases ih placed with | separator blank' placed =>
      exact .separator (List.forall_mem_append.mpr ⟨blank, blank'⟩) placed
    | apart => exact .separator blank (ih placed)
  | call name inside rest _ ih =>
    cases placed with | call known arguments ends placed =>
    rw [← headWord_of_fused rest] at ends
    rw [Unbroken, ← render_fused inside] at arguments
    exact .call known arguments ends (ih placed)

/-- Between parts only the blanks at the ends go away. -/
theorem placed_compact {before ns : List Node} (placed : Placed Tightens ns) (quiet : spacedOperator before = false) :
    Placed Unbroken (compact before ns) ∧
      (before ≠ [] → headWord ns = false → headWord (compact before ns) = false) := by
  induction placed generalizing before with
  | nil =>
    rw [compact]
    exact ⟨.nil, fun _ => id⟩
  | @separator t ns blank placed ih =>
    have quiet' : spacedOperator (.separator t :: before) = false := by simp [spacedOperator_cons, Node.isOperator]
    obtain ⟨later, -⟩ := ih quiet'
    rw [compact_separator]
    cases dropped : isDropped before (.separator t) ns with
    | true =>
      refine ⟨later, fun inside _ => ?_⟩
      rcases isDropped_iff.mp dropped with ⟨-, none | rfl⟩ | ⟨-, spaced | spaced⟩
      · exact absurd none inside
      · simp [compact, headWord]
      · simp [quiet] at spaced
      · simp [placed.spacedOperator_eq] at spaced
    | false => exact ⟨.separator blank later, fun _ _ => rfl⟩
  | @word t ns place ends _ ih =>
    have operand : (Node.word t).isOperator = false := by
      obtain ⟨c, u, rfl⟩ := List.exists_cons_of_ne_nil (singleWord_of_isPlace place).some_left
      rw [isOperator_cons]
      cases u with
      | nil => simp [(singleWord_of_isPlace place).operand c rfl]
      | cons d u => simp
    have quiet' : spacedOperator (.word t :: before) = false := by rw [spacedOperator_cons, operand, Bool.false_and]
    obtain ⟨later, fresh⟩ := ih quiet'
    rw [compact_word]
    exact ⟨.word place (fresh (List.cons_ne_nil _ _) ends) later, fun _ ends => ends⟩
  | @call name args ns known arguments ends _ ih =>
    have quiet' : spacedOperator (.call name args :: before) = false := by
      simp [spacedOperator_cons, Node.isOperator]
    obtain ⟨later, fresh⟩ := ih quiet'
    rw [compact_call]
    exact ⟨.call known arguments (fresh (List.cons_ne_nil _ _) ends) later, fun _ ends => ends⟩

theorem isPosition_of_placed {v : Text} (placed : Placed Tightens (parse v)) :
    isPosition (compactText v) = true :=
  isPosition_iff_placed.mpr (placed_of_fused (fused_compactText v) (placed_compact placed rfl).1)

theorem head_of_word {t u : Text} {ns : List Node} (read : parse t = .word u :: ns) :
    t.head?.any isSeparator = false := by
  cases t with
  | nil => rfl
  | cons c t =>
    by_contra separates
    obtain ⟨ms, same⟩ := here_separator 0 t (c := c) (by simpa using separates)
    rw [parse, same] at read
    cases read

theorem parse_operand {op : Char} (operator : isOperatorChar op = true) (t : Text) :
    parse (op :: t) = spell op (parse t) := by
  have plain : Scan.plain.next op = .plain := next_neutral (by trivial) (operator_neutral operator)
  rw [parse, nest_word 0 t (operator_inward 0 operator), plain, ← parse]

/-- A first part with a sign is spaced like the part with the sign between two single spaces. -/
theorem compactText_signed {op : Char} {t : Text} (operator : isOperatorChar op = true)
    (placed : Placed Tightens (parse (op :: t))) : compactText (' ' :: op :: ' ' :: t) = compactText (op :: t) := by
  have filled := filled_parse t
  rw [parse_operand operator] at placed
  cases first : parse t with
  | nil =>
    rw [first] at placed
    cases placed with | word place => simp [(singleWord_of_isPlace place).operand op rfl] at operator
  | cons n ns =>
    rw [first] at placed filled
    cases n with
    | separator r =>
      cases placed with | word place => simp [(singleWord_of_isPlace place).operand op rfl] at operator
    | call name args =>
      cases placed with | call known =>
      simp [(isPlain_iff.mp (isPlain_of_calculation known op (.head name))).2] at operator
    | word u =>
      cases placed with | word place =>
      cases filled with | word some_left =>
      have inert := (singleWord_of_isPlace place).inert
      have other := head_of_word first
      have alike : Alike [.word (op :: u)] [.word u, .separator [' '], .word [op], .separator [' ']] := by
        obtain ⟨c, u, rfl⟩ := List.exists_cons_of_ne_nil some_left
        refine ⟨rfl, ?_, rfl⟩
        rw [spacedOperator_cons, spacedOperator_cons, isOperator_cons, isOperator_cons, inert c (.head u)]
        simp
      rw [compactText_eq_compact, compactText_eq_compact, parse_operand operator, parse_operator operator other,
        compact_operator operator, first, compact_word, spell, compact_word, compact_congr alike]
      simp

/-- The value is a position, but for single spaces around the sign of its first part. -/
def SpacedPosition (v : Text) : Prop :=
  ∃ op t, isOperatorChar op = true ∧ v = ' ' :: op :: ' ' :: t ∧ Placed Tightens (parse (op :: t))

/-- Canonical spacing takes no position away, and it adds those where all blanks in calls go away
or where the sign of the first part stands between two single spaces. -/
theorem isPosition_compactText {v : Text} : isPosition (trim (compactText v)) = true ↔
    Placed Tightens (parse v) ∨ SpacedPosition v := by
  rw [isPosition_trim]
  constructor
  · intro position
    have placed := isPosition_iff_placed.mp position
    have source := source_of_aligned placed.aligned
    generalize parse (compactText v) = fs at placed source
    cases source with
    | same lead ns read blank kept =>
      refine .inl ?_
      rw [read]
      have behind := placed_of_kept kept placed
      clear read
      induction lead with
      | nil => exact behind
      | cons n lead ih =>
        obtain ⟨⟨t, rfl, first⟩, later⟩ := List.forall_mem_cons.mp blank
        exact .separator (List.all_eq_true.mp first) (ih later)
    | @joined op t u ns ms operator whole read same kept =>
      subst same
      cases placed with | word place ends placed =>
      refine .inr ⟨op, t, operator, whole, ?_⟩
      rw [parse_operand operator, read]
      exact .word place (headWord_of_kept kept ▸ ends) (placed_of_kept kept placed)
  · rintro (placed | ⟨op, t, operator, rfl, placed⟩)
    · exact isPosition_of_placed placed
    · rw [compactText_signed operator placed]
      exact isPosition_of_placed placed

end AtomicCss.DataType
