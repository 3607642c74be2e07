import AtomicCss.Proofs.Value.Deletion

/-! Siblings that are read alike before and after canonical spacing. Spaces inside of a list of
siblings only go away beside an operator, which is then joined with the word in front of it or
with the one behind it. So where no operator is found behind the first character of a word, nothing was joined. -/
namespace AtomicCss.Value
open Text

/-- No word or separator is empty, and a word that stands right in front of another word or a call holds a
parenthesis that nothing closes. -/
inductive Filled : List Node → Prop
  | nil : Filled []
  | word {t : Text} {ns : List Node} (some_left : t ≠ []) (ends : headWord ns = true → '(' ∈ t)
    (rest : Filled ns) : Filled (.word t :: ns)
  | separator {t : Text} {ns : List Node} (some_left : t ≠ []) (rest : Filled ns) :
    Filled (.separator t :: ns)
  | call {name : Text} {args ns : List Node} (rest : Filled ns) : Filled (.call name args :: ns)

theorem Filled.spell {ns : List Node} (filled : Filled ns) (c : Char) : Filled (spell c ns) := by
  cases filled with
  | nil => exact .word (List.cons_ne_nil c []) nofun .nil
  | word _ ends rest => exact .word (List.cons_ne_nil c _) (fun next => .tail c (ends next)) rest
  | separator some_left rest => exact .word (List.cons_ne_nil c []) nofun (.separator some_left rest)
  | call rest => exact .call rest

theorem Filled.space {ns : List Node} (filled : Filled ns) (c : Char) : Filled (space c ns) := by
  have some_left (t : Text) : c :: t ≠ [] := List.cons_ne_nil c t
  cases filled with
  | nil => exact .separator (some_left []) .nil
  | word filled ends rest => exact .separator (some_left []) (.word filled ends rest)
  | separator _ rest => exact .separator (some_left _) rest
  | call rest => exact .separator (some_left []) (.call rest)

theorem filled_nest (depth : Nat) (s : Scan) (t : Text) :
    Filled (nest (lex depth s t)).here ∧ ∀ ns ∈ (nest (lex depth s t)).after, Filled ns := by
  refine nest_lex_induction (motive := fun _ _ _ g => Filled g.here ∧ ∀ ns ∈ g.after, Filled ns)
    ?_ ?_ ?_ ?_ ?_ depth s t
  · intro depth s
    exact ⟨.nil, nofun⟩
  · rintro depth s c rest g - ⟨here, later⟩
    exact ⟨here.spell c, later⟩
  · rintro depth c rest g - - ⟨here, later⟩
    exact ⟨here.space c, later⟩
  · rintro depth rest ⟨here, _ | ⟨siblings, after⟩⟩ ⟨filled, later⟩
    · exact ⟨.word (List.cons_ne_nil _ _) (fun _ => .head _) filled, later⟩
    · obtain ⟨outer, later⟩ := List.forall_mem_cons.mp later
      exact ⟨.call outer, later⟩
  · rintro depth rest g ⟨here, later⟩
    exact ⟨.nil, List.forall_mem_cons.mpr ⟨here, later⟩⟩

theorem filled_parse (t : Text) : Filled (parse t) := (filled_nest 0 .plain t).1

/-- Without operators and opening parentheses. -/
def Inert (t : Text) : Prop := ∀ c ∈ t, isOperatorChar c = false ∧ c ≠ '('

/-- Siblings with blanks between them. An operator may be the first character of a word, but not
the only one. -/
inductive Aligned : List Node → Prop
  | nil : Aligned []
  | separator {t : Text} {ns : List Node} (blank : t.all isBlank = true) (rest : Aligned ns) :
    Aligned (.separator t :: ns)
  | word {c : Char} {u : Text} {ns : List Node} (opens : c ≠ '(') (operand : isOperatorChar c = true → u ≠ [])
    (inert : Inert u) (ends : headWord ns = false) (rest : Aligned ns) : Aligned (.word (c :: u) :: ns)
  | call {name : Text} {args ns : List Node} (inert : Inert name) (ends : headWord ns = false)
    (rest : Aligned ns) : Aligned (.call name args :: ns)

/-- The same siblings, but for the arguments of calls in their canonical spacing and for a last separator. -/
inductive Kept : List Node → List Node → Prop
  | nil : Kept [] []
  | last {t : Text} (blank : t.all isBlank = true) : Kept [.separator t] []
  | word {t : Text} {ns fs : List Node} (rest : Kept ns fs) : Kept (.word t :: ns) (.word t :: fs)
  | separator {t : Text} {ns fs : List Node} (rest : Kept ns fs) :
    Kept (.separator t :: ns) (.separator t :: fs)
  | call {name : Text} {args args' ns fs : List Node} (inside : Fused (compact [] args) args')
    (rest : Kept ns fs) : Kept (.call name args :: ns) (.call name args' :: fs)

theorem isDropped_iff {before after : List Node} {t : Text} :
    isDropped before (.separator t) after = true ↔
      (t ≠ [] ∧ t.all isBlank = true) ∧ (before = [] ∨ after = []) ∨
        t = [' '] ∧ (spacedOperator before = true ∨ spacedOperator after = true) := by
  simp [isDropped, Node.isBlankSeparator, Node.isSpace]

theorem exists_of_headSpace {ns : List Node} (single : headSpace ns = true) :
    ∃ rest, ns = .separator [' '] :: rest := by
  cases ns with
  | nil => cases single
  | cons n rest =>
    cases n with
    | separator t =>
      obtain rfl : t = [' '] := by simpa [headSpace, Node.isSpace] using single
      exact ⟨rest, rfl⟩
    | _ => cases single

/-- An operator and then exactly one space. -/
theorem word_of_spacedOperator {ns : List Node} (spaced : spacedOperator ns = true) :
    ∃ op rest, ns = .word [op] :: rest ∧ isOperatorChar op = true ∧ headSpace rest = true := by
  cases ns with
  | nil => cases spaced
  | cons n rest =>
    rw [spacedOperator_cons, Bool.and_eq_true] at spaced
    cases n with
    | word t =>
      cases t with
      | nil => cases spaced.1
      | cons c u =>
        rw [isOperator_cons, Bool.and_eq_true, List.isEmpty_iff] at spaced
        obtain ⟨⟨operator, rfl⟩, single⟩ := spaced
        exact ⟨c, rest, rfl, operator, single⟩
    | _ => cases spaced.1

section

variable {ns ms fs : List Node} {t : Text}

/-- What an operator is joined with begins with that operator. -/
theorem Fused.operator_first {op : Char} (fused : Fused (.word [op] :: ns) ms) :
    (∃ u rest, ms = .word (op :: u) :: rest) ∨ ∃ name args rest, ms = .call (op :: name) args :: rest := by
  cases fused with
  | word _ _ joined =>
    cases joined with
    | word => exact .inl ⟨_, _, rfl⟩
    | name => exact .inr ⟨_, _, _, rfl⟩
    | apart => exact .inl ⟨_, _, rfl⟩

/-- A word is aligned only if no operator is joined to it from behind. -/
theorem Aligned.not_operator (aligned : Aligned fs) (some_left : t ≠ []) {op : Char}
    (operator : isOperatorChar op = true) (fused : Fused (.word [op] :: ns) ms)
    (joined : Joined (.word t) ms fs) : False := by
  obtain ⟨c, t, rfl⟩ := List.exists_cons_of_ne_nil some_left
  rcases fused.operator_first with ⟨u, rest, rfl⟩ | ⟨name, args, rest, rfl⟩
  · cases joined with
    | word =>
      cases aligned with
      | word _ _ inert => simp [(inert op (by simp)).1] at operator
    | apart =>
      cases aligned with
      | word _ _ _ ends => cases ends
  · cases joined with
    | name =>
      cases aligned with
      | call inert => simp [(inert op (by simp)).1] at operator
    | apart =>
      cases aligned with
      | word _ _ _ ends => cases ends

theorem headWord_of_fused (fused : Fused ns ms) : headWord ms = headWord ns := by
  cases fused with
  | word _ _ joined => cases joined <;> rfl
  | separator _ joined => cases joined <;> rfl
  | _ => rfl

/-- Words that hold no parenthesis are joined only where a separator went away. -/
theorem Aligned.apart (aligned : Aligned fs) (joined : Joined (.word t) ms fs)
    (fresh : headWord ms = true → '(' ∈ t ∧ t ≠ []) : fs = .word t :: ms := by
  cases joined with
  | word _ u ms =>
    obtain ⟨opens, some_left⟩ := fresh rfl
    obtain ⟨c, t, rfl⟩ := List.exists_cons_of_ne_nil some_left
    cases aligned with
    | word other _ inert =>
      rcases List.mem_cons.mp opens with rfl | member
      · exact absurd rfl other
      · exact absurd rfl (inert '(' (by simp [member])).2
  | name _ name args ms =>
    obtain ⟨opens, -⟩ := fresh rfl
    cases aligned with
    | call inert => exact absurd rfl (inert '(' (by simp [opens])).2
  | apart => rfl

end

/-- A space in front of a spaced operator goes away, and the operator comes next. -/
theorem compact_spaced (before : List Node) {ns : List Node} (single : headSpace ns = true)
    (spaced : spacedOperator ns.tail = true) :
    ∃ op rest, compact before ns = .word [op] :: rest ∧ isOperatorChar op = true := by
  obtain ⟨ns, rfl⟩ := exists_of_headSpace single
  have dropped : isDropped before (.separator [' ']) ns = true := isDropped_iff.mpr (.inr ⟨rfl, .inr spaced⟩)
  obtain ⟨op, behind, rfl, operator, -⟩ := word_of_spacedOperator spaced
  rw [compact_separator, if_pos dropped, List.nil_append, compact_word]
  exact ⟨op, _, rfl, operator⟩

/-- What stands ahead and what comes next leave no operator between two single spaces. -/
structure Unspaced (before ns : List Node) : Prop where
  front : headSpace before = true → spacedOperator ns = false
  here : headSpace ns = true → spacedOperator before = false ∧ spacedOperator ns.tail = false

namespace Unspaced

variable {before ns : List Node} {t : Text}

/-- Nothing but the last separator goes away. -/
theorem last_of_dropped (unspaced : Unspaced before (.separator t :: ns)) (inside : before ≠ [])
    (dropped : isDropped before (.separator t) ns = true) : t.all isBlank = true ∧ ns = [] := by
  rcases isDropped_iff.mp dropped with ⟨⟨-, blank⟩, none | none⟩ | ⟨rfl, spaced⟩
  · exact absurd none inside
  · exact ⟨blank, none⟩
  · obtain ⟨ahead, behind⟩ := unspaced.here rfl
    rw [List.tail_cons] at behind
    rcases spaced with spaced | spaced
    · simp [spaced] at ahead
    · simp [spaced] at behind

theorem headWord_compact (unspaced : Unspaced before ns) (inside : before ≠ [])
    (separates : headSeparator ns = true) : headWord (compact before ns) = false := by
  cases ns with
  | nil => cases separates
  | cons n ns =>
    cases n with
    | separator t =>
      rw [compact_separator]
      split
      · rename_i dropped
        obtain ⟨-, rfl⟩ := unspaced.last_of_dropped inside dropped
        simp [compact, headWord]
      · rfl
    | _ => cases separates

/-- Behind a word that is itself no operator between two single spaces. -/
theorem behind_word (unspaced : Unspaced before (.word t :: ns))
    (behind : headSpace ns = true → spacedOperator ns.tail = false) : Unspaced (.word t :: before) ns := by
  refine ⟨by simp [headSpace, Node.isSpace], fun single => ⟨?_, behind single⟩⟩
  by_contra spaced
  rw [Bool.not_eq_false, spacedOperator_cons, Bool.and_eq_true] at spaced
  have front := unspaced.front spaced.2
  rw [spacedOperator_cons, spaced.1, single] at front
  cases front

theorem behind_call (name : Text) (args : List Node)
    (behind : headSpace ns = true → spacedOperator ns.tail = false) :
    Unspaced (.call name args :: before) ns :=
  ⟨by simp [headSpace, Node.isSpace], fun single =>
    ⟨by simp [spacedOperator_cons, Node.isOperator], behind single⟩⟩

theorem behind_separator (alone : headSeparator ns = false)
    (behind : t = [' '] → spacedOperator ns = false) : Unspaced (.separator t :: before) ns := by
  refine ⟨fun single => behind (by simpa [headSpace, Node.isSpace] using single), fun single => ?_⟩
  rw [headSeparator_of_space single] at alone
  cases alone

end Unspaced

/-- Of siblings that begin with a word or a call, the first one is kept. -/
theorem headWord_of_compact {before ns : List Node} (word : headWord (compact before ns) = true)
    (other : headSeparator ns = false) : headWord ns = true := by
  cases ns with
  | nil => simp [compact, headWord] at word
  | cons n ns =>
    cases n with
    | separator => cases other
    | _ => rfl

/-- If the siblings are aligned after canonical spacing, they were the same before. -/
theorem kept_of_aligned {before ns fs : List Node} (parted : Parted ns) (filled : Filled ns)
    (inside : headSeparator ns = true → before ≠ []) (unspaced : Unspaced before ns)
    (fused : Fused (compact before ns) fs) (aligned : Aligned fs) : Kept ns fs := by
  induction filled generalizing before fs with
  | nil =>
    rw [compact] at fused
    cases fused
    exact .nil
  | @word t ns some_left ends _ ih =>
    rw [compact_word] at fused
    cases parted with | word _ parted =>
    cases fused with | @word _ _ ms _ _ rest joined =>
    have next : Unspaced (.word t :: before) ns := by
      refine unspaced.behind_word fun single => Bool.eq_false_iff.mpr fun spaced => ?_
      obtain ⟨op, behind, same, operator⟩ := compact_spaced (.word t :: before) single spaced
      rw [same] at rest
      exact aligned.not_operator some_left operator rest joined
    obtain rfl : fs = .word t :: ms := by
      refine aligned.apart joined fun word => ⟨?_, some_left⟩
      rw [headWord_of_fused rest] at word
      cases separates : headSeparator ns with
      | true => simp [next.headWord_compact (List.cons_ne_nil _ _) separates] at word
      | false => exact ends (headWord_of_compact word separates)
    cases aligned with | word _ _ _ _ aligned =>
    exact .word (ih parted (fun _ => List.cons_ne_nil _ _) next rest aligned)
  | @separator t ns _ _ ih =>
    rw [compact_separator] at fused
    cases parted with | separator _ alone parted =>
    cases dropped : isDropped before (.separator t) ns with
    | true =>
      obtain ⟨blank, rfl⟩ := unspaced.last_of_dropped (inside rfl) dropped
      rw [if_pos dropped, compact] at fused
      cases fused
      exact .last blank
    | false =>
      rw [if_neg (by simp [dropped])] at fused
      cases fused with | separator rest joined =>
      obtain rfl := rest.separator_eq (compact_head _ alone).2 joined
      cases aligned with | separator blank aligned =>
      refine .separator (ih parted (fun _ => List.cons_ne_nil _ _) ?_ rest aligned)
      refine .behind_separator alone fun single => ?_
      subst single
      exact (unspaced.here rfl).2
  | @call name args ns _ ih =>
    rw [compact_call] at fused
    cases parted with | call _ _ parted =>
    cases fused with | call _ args' rest =>
    cases aligned with | call inert ends aligned =>
    refine .call args' (ih parted (fun _ => List.cons_ne_nil _ _) ?_ rest aligned)
    refine .behind_call name args fun single => Bool.eq_false_iff.mpr fun spaced => ?_
    obtain ⟨op, behind, same, -⟩ := compact_spaced (.call name args :: before) single spaced
    rw [same] at rest
    rw [headWord_of_fused rest] at ends
    cases ends

/-- The text of a value that begins with an operator between two single spaces. -/
theorem text_of_spaced {v : Text} {ns : List Node} (read : parse v = .separator [' '] :: ns)
    (spaced : spacedOperator ns = true) : ∃ op t, v = ' ' :: op :: ' ' :: t ∧ isOperatorChar op = true ∧
      t.head?.any isSeparator = false := by
  obtain ⟨op, rest, rfl, operator, single⟩ := word_of_spacedOperator spaced
  obtain ⟨ns, rfl⟩ := exists_of_headSpace single
  have whole : v = ' ' :: op :: ' ' :: render ns := by
    rw [← render_parse v, read]
    simp
  have behind : parse (' ' :: op :: ' ' :: render ns) = .separator [' '] :: parse (op :: ' ' :: render ns) :=
    here_space (by simp [isSeparator_operator operator]) 0
  have leads : leadsSpaced (op :: ' ' :: render ns) = true := by
    rw [← spacedOperator_nest 0, ← parse]
    rw [whole, behind, List.cons.injEq] at read
    rw [read.2, spaced]
  refine ⟨op, render ns, whole, operator, ?_⟩
  simpa [leadsSpaced, operator] using leads

/-- How aligned siblings came about: they were the same before, or an operator between two single
spaces in front was joined with the first word. -/
inductive Source (v : Text) (fs : List Node) : Prop
  | same (lead ns : List Node) (read : parse v = lead ++ ns)
    (blank : ∀ n ∈ lead, ∃ t, n = .separator t ∧ t.all isBlank = true) (kept : Kept ns fs)
  | joined {op : Char} {t u : Text} {ns ms : List Node} (operator : isOperatorChar op = true)
    (whole : v = ' ' :: op :: ' ' :: t) (read : parse t = .word u :: ns) (same : fs = .word (op :: u) :: ms)
    (kept : Kept ns ms)

section

variable {op : Char} (operator : isOperatorChar op = true)

include operator

theorem parse_operator {t : Text} (other : t.head?.any isSeparator = false) :
    parse (' ' :: op :: ' ' :: t) = .separator [' '] :: .word [op] :: .separator [' '] :: parse t := by
  rw [parse, nest_operator other 0 operator, ← parse]

/-- An operator between two single spaces loses both. -/
theorem compact_operator (before ns : List Node) :
    compact before (.separator [' '] :: .word [op] :: .separator [' '] :: ns) =
      .word [op] :: compact (.separator [' '] :: .word [op] :: .separator [' '] :: before) ns := by
  have spaced (ms : List Node) : spacedOperator (.word [op] :: .separator [' '] :: ms) = true := by
    simp [spacedOperator_cons, isOperator_cons, operator, headSpace, Node.isSpace]
  have first : isDropped before (.separator [' ']) (.word [op] :: .separator [' '] :: ns) = true :=
    isDropped_iff.mpr (.inr ⟨rfl, .inr (spaced ns)⟩)
  have second : isDropped (.word [op] :: .separator [' '] :: before) (.separator [' ']) ns = true :=
    isDropped_iff.mpr (.inr ⟨rfl, .inl (spaced before)⟩)
  rw [compact_separator, if_pos first, List.nil_append, compact_word, compact_separator, if_pos second,
    List.nil_append]

end

theorem source_of_joined {op : Char} {t : Text} {fs : List Node} (operator : isOperatorChar op = true)
    (other : t.head?.any isSeparator = false)
    (fused : Fused (compact [] (parse (' ' :: op :: ' ' :: t))) fs) (aligned : Aligned fs) :
    Source (' ' :: op :: ' ' :: t) fs := by
  rw [parse_operator operator other, compact_operator operator] at fused
  cases fused with | @word _ _ ms _ some_left rest joined =>
  have unspaced : Unspaced [.separator [' '], .word [op], .separator [' ']] (parse t) := by
    refine ⟨fun _ => Bool.eq_false_iff.mpr fun spaced => ?_, fun single => ?_⟩
    · obtain ⟨op', behind, same, operator', -⟩ := word_of_spacedOperator spaced
      rw [same, compact_word] at rest
      exact aligned.not_operator some_left operator' rest joined
    · rw [parse, headSpace_nest, beq_iff_eq] at single
      cases t with
      | nil => cases single
      | cons c t => simp [show isSeparator c = false by simpa using other] at single
  cases joined with
  | word _ u ms =>
    have aligned' : Aligned (.word u :: ms) := by
      cases aligned with | word _ operand inert ends aligned =>
      obtain ⟨c, u, rfl⟩ := List.exists_cons_of_ne_nil (operand operator)
      obtain ⟨⟨letter, opens⟩, inert⟩ := List.forall_mem_cons.mp inert
      exact .word opens (by simp [letter]) inert ends aligned
    have kept := kept_of_aligned (parted_parse t) (filled_parse t) (fun _ => List.cons_ne_nil _ _)
      unspaced rest aligned'
    generalize behind : parse t = ns at kept
    cases kept with | word kept => exact .joined operator rfl behind rfl kept
  | name _ name args ms =>
    cases aligned with | call inert => simp [(inert op (by simp)).1] at operator
  | apart =>
    cases aligned with | word _ operand => exact absurd rfl (operand operator)

/-- Where the canonical spacing of a text is aligned, its siblings are known. -/
theorem source_of_aligned {v : Text} (aligned : Aligned (parse (compactText v))) :
    Source v (parse (compactText v)) := by
  have fused := fused_compactText v
  have parted := parted_parse v
  have filled := filled_parse v
  have whole := fused
  generalize parse (compactText v) = fs at fused whole aligned ⊢
  generalize read : parse v = ns at fused parted filled
  cases separates : headSeparator ns with
  | false =>
    have unspaced : Unspaced [] ns := by
      refine ⟨by simp [headSpace], fun single => ?_⟩
      simp [headSeparator_of_space single] at separates
    exact .same [] ns read (by simp) (kept_of_aligned parted filled (by simp [separates]) unspaced fused aligned)
  | true =>
    cases parted with
    | @separator t ns alone parted =>
      cases filled with | separator some_left filled =>
      rw [compact_separator] at fused
      by_cases blank : t.all isBlank = true
      · rw [if_pos (isDropped_iff.mpr (.inl ⟨⟨some_left, blank⟩, .inl rfl⟩)), List.nil_append] at fused
        by_cases spaced : t = [' '] ∧ spacedOperator ns = true
        · obtain ⟨rfl, spaced⟩ := spaced
          obtain ⟨op, t, rfl, operator, other⟩ := text_of_spaced read spaced
          exact source_of_joined operator other whole aligned
        · have unspaced : Unspaced [.separator t] ns :=
            .behind_separator alone fun single => Bool.eq_false_iff.mpr fun leads => spaced ⟨single, leads⟩
          exact .same [.separator t] ns read (by simpa using blank)
            (kept_of_aligned parted filled (fun _ => List.cons_ne_nil _ _) unspaced fused aligned)
      · have stays : isDropped [] (.separator t) ns ≠ true := fun dropped => by
          obtain ⟨u, same, blank'⟩ := blank_of_dropped dropped
          cases same
          exact blank blank'
        rw [if_neg stays] at fused
        cases fused with | separator rest joined =>
        obtain rfl := rest.separator_eq (compact_head _ alone).2 joined
        cases aligned with | separator blank' => exact absurd blank' blank
    | _ => cases separates

end AtomicCss.Value
