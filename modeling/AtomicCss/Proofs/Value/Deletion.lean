import AtomicCss.Proofs.Value.Pruning
import AtomicCss.Proofs.Value.Squeeze

/-! Canonical spacing deletes whole separators of the tree and nothing else, and there is
nothing left for it to delete when it comes again. A separator that was kept has the same
first and second neighbours afterwards: a neighbour goes away only beside an operator, and a
word is joined with another one only where it is no operator any more. -/
namespace AtomicCss.Value
open Text

def headSeparator : List Node → Bool
  | .separator _ :: _ => true
  | _ => false

/-- No separator stands beside another one, at any depth. -/
inductive Parted : List Node → Prop
  | nil : Parted []
  | word (t : Text) {ns : List Node} (rest : Parted ns) : Parted (.word t :: ns)
  | separator (t : Text) {ns : List Node} (alone : headSeparator ns = false) (rest : Parted ns) :
    Parted (.separator t :: ns)
  | call (name : Text) {args ns : List Node} (inside : Parted args) (rest : Parted ns) :
    Parted (.call name args :: ns)

theorem parted_spell {c : Char} {ns : List Node} (parted : Parted ns) : Parted (spell c ns) := by
  revert parted
  fun_cases spell c ns with
  | case1 t ns =>
    rintro ⟨⟩
    exact .word _ ‹_›
  | case2 name args ns =>
    rintro ⟨⟩
    exact .call _ ‹_› ‹_›
  | case3 => exact .word [c]

theorem parted_space {c : Char} {ns : List Node} (parted : Parted ns) : Parted (space c ns) := by
  revert parted
  fun_cases space c ns with
  | case1 t ns =>
    rintro ⟨⟩
    exact .separator _ ‹_› ‹_›
  | case2 =>
    rename_i other
    have alone : headSeparator ns = false := by
      unfold headSeparator
      split
      · exact absurd rfl (other _ _)
      · rfl
    exact .separator [c] alone

theorem parted_parse (t : Text) : Parted (parse t) := by
  refine (nest_lex_induction (motive := fun _ _ _ g => Parted g.here ∧ ∀ ns ∈ g.after, Parted ns)
    ?_ ?_ ?_ ?_ ?_ 0 .plain t).1
  · intro depth s
    exact ⟨.nil, by simp⟩
  · rintro depth s c rest g - ⟨here, later⟩
    exact ⟨parted_spell here, later⟩
  · rintro depth c rest g - - ⟨here, later⟩
    exact ⟨parted_space here, later⟩
  · rintro depth rest ⟨here, _ | ⟨siblings, after⟩⟩ ⟨parted, later⟩
    · exact ⟨.word _ parted, later⟩
    · exact ⟨.call [] parted (later siblings (by simp)), fun ns member => later ns (List.mem_cons_of_mem _ member)⟩
  · rintro depth rest g ⟨here, later⟩
    exact ⟨.nil, by simpa [Nesting.close] using ⟨here, later⟩⟩

/-- Siblings behind `before` of which no separator goes away, at any depth. -/
inductive Compacted : List Node → List Node → Prop
  | nil (before : List Node) : Compacted before []
  | word {before : List Node} {t : Text} {ns : List Node} (rest : Compacted (.word t :: before) ns) :
    Compacted before (.word t :: ns)
  | separator {before : List Node} {t : Text} {ns : List Node} (alone : headSeparator ns = false)
    (stays : isDropped before (.separator t) ns = false) (rest : Compacted (.separator t :: before) ns) :
    Compacted before (.separator t :: ns)
  | call {before : List Node} {name : Text} {args ns : List Node} (inside : Compacted [] args)
    (rest : Compacted (.call name args :: before) ns) : Compacted before (.call name args :: ns)

theorem Compacted.compact_eq {before ns : List Node} (compacted : Compacted before ns) :
    compact before ns = ns := by
  induction compacted with
  | nil => simp [compact]
  | word _ ih => rw [compact_word, ih]
  | separator _ stays _ ih =>
    rw [compact_separator, stays, ih]
    rfl
  | call _ _ args ih => rw [compact_call, args, ih]

/-- It makes no difference what stands ahead beyond the second neighbour. -/
theorem Compacted.congr {a b ns : List Node} (alike : Alike a b) (compacted : Compacted a ns) :
    Compacted b ns := by
  induction compacted generalizing b with
  | nil => exact .nil b
  | word _ ih => exact .word (ih (alike.cons _))
  | separator alone stays _ ih =>
    refine .separator alone ?_ (ih (alike.cons _))
    rw [← stays]
    simp [isDropped, alike.empty, alike.spaced]
  | call inside _ _ ih => exact .call inside (ih (alike.cons _))

/-- Whatever goes away between neighbours also goes away between others at least as near to an
edge or to a spaced operator. -/
theorem isDropped_mono {a b : List Node} {n : Node} {ns ms : List Node}
    (first : a.isEmpty = true → b.isEmpty = true)
    (ahead : spacedOperator a = true → spacedOperator b = true)
    (last : ns.isEmpty = true → ms.isEmpty = true)
    (behind : spacedOperator ns = true → spacedOperator ms = true)
    (dropped : isDropped a n ns = true) : isDropped b n ms = true := by
  simp only [isDropped, Bool.or_eq_true, Bool.and_eq_true] at dropped ⊢
  rcases dropped with ⟨blank, edge | edge⟩ | ⟨single, operator | operator⟩
  · exact .inl ⟨blank, .inl (first edge)⟩
  · exact .inl ⟨blank, .inr (last edge)⟩
  · exact .inr ⟨single, .inl (ahead operator)⟩
  · exact .inr ⟨single, .inr (behind operator)⟩

theorem headSeparator_of_space {ns : List Node} (single : headSpace ns = true) :
    headSeparator ns = true := by
  cases ns with
  | nil => cases single
  | cons n ns =>
    cases n with
    | separator => rfl
    | _ => cases single

section

variable (before : List Node) {ns : List Node}

/-- What begins with no separator begins as before. -/
theorem compact_head (alone : headSeparator ns = false) :
    (compact before ns).isEmpty = ns.isEmpty ∧ headSeparator (compact before ns) = false := by
  cases ns with
  | nil => simp [compact, headSeparator]
  | cons n ns =>
    cases n with
    | word => simp [compact_word, headSeparator]
    | call => simp [compact_call, headSeparator]
    | separator => cases alone

theorem headSpace_compact (parted : Parted ns) (single : headSpace (compact before ns) = true) :
    headSpace ns = true := by
  cases parted with
  | nil => simp [compact, headSpace] at single
  | word => simp [compact_word, headSpace, Node.isSpace] at single
  | call => simp [compact_call, headSpace, Node.isSpace] at single
  | separator t alone =>
    rw [compact_separator] at single
    split at single
    · have first := headSeparator_of_space single
      rw [List.nil_append, (compact_head _ alone).2] at first
      cases first
    · exact single

theorem spacedOperator_compact (parted : Parted ns) (alone : headSeparator ns = false)
    (spaced : spacedOperator (compact before ns) = true) : spacedOperator ns = true := by
  cases parted with
  | nil => simp [compact, spacedOperator] at spaced
  | word t rest =>
    rw [compact_word, spacedOperator_cons, Bool.and_eq_true] at spaced
    rw [spacedOperator_cons, spaced.1, headSpace_compact _ rest spaced.2]
    rfl
  | call => simp [compact_call, spacedOperator_cons, Node.isOperator] at spaced
  | separator => cases alone

end

/-- What is left of the siblings ahead, as far as a separator behind them depends on it. -/
structure Remains (before kept : List Node) : Prop where
  space : headSpace kept = true → headSpace before = true
  empty : headSeparator before = false → kept.isEmpty = true → before.isEmpty = true
  spaced : headSeparator before = false → spacedOperator kept = true → spacedOperator before = true

namespace Remains

variable {before kept : List Node}

theorem refl (before : List Node) : Remains before before := ⟨id, fun _ => id, fun _ => id⟩

theorem word (remains : Remains before kept) (t : Text) : Remains (.word t :: before) (.word t :: kept) := by
  refine ⟨id, by simp, fun _ spaced => ?_⟩
  rw [spacedOperator_cons, Bool.and_eq_true] at spaced ⊢
  exact ⟨spaced.1, remains.space spaced.2⟩

theorem call (name : Text) (args args' : List Node) :
    Remains (.call name args :: before) (.call name args' :: kept) :=
  ⟨id, by simp, by simp [spacedOperator_cons, Node.isOperator]⟩

theorem separator (t : Text) : Remains (.separator t :: before) (.separator t :: kept) :=
  ⟨id, by simp [headSeparator], by simp [headSeparator]⟩

theorem drop (remains : Remains before kept) (alone : headSeparator before = false) (t : Text) :
    Remains (.separator t :: before) kept := by
  refine ⟨fun single => ?_, by simp [headSeparator], by simp [headSeparator]⟩
  rw [headSeparator_of_space (remains.space single)] at alone
  cases alone

end Remains

theorem compacted_compact {before kept ns : List Node} (parted : Parted ns)
    (apart : headSeparator ns = true → headSeparator before = false) (remains : Remains before kept) :
    Compacted kept (compact before ns) := by
  induction parted generalizing before kept with
  | nil =>
    rw [compact]
    exact .nil kept
  | word t _ ih =>
    rw [compact_word]
    exact .word (ih (fun _ => rfl) (remains.word t))
  | call name _ _ inside ih =>
    rw [compact_call]
    exact .call (inside (fun _ => rfl) (.refl [])) (ih (fun _ => rfl) (.call name _ _))
  | @separator t ns alone rest ih =>
    have apart := apart rfl
    have next : headSeparator ns = true → headSeparator (.separator t :: before) = false := by
      simp [alone]
    rw [compact_separator]
    cases dropped : isDropped before (.separator t) ns with
    | true => simpa using ih next (remains.drop apart t)
    | false =>
      have head := compact_head (.separator t :: before) alone
      refine .separator head.2 (Bool.eq_false_iff.mpr fun drops => ?_) (ih next (.separator t))
      refine Bool.eq_false_iff.mp dropped (isDropped_mono (remains.empty apart) (remains.spaced apart) ?_
        (spacedOperator_compact _ rest alone) drops)
      rw [head.1]
      exact id

mutual

theorem prunedNode_compact : (n : Node) → (ns ms : List Node) → Pruned ns ms →
    Pruned (n :: ns) (compactNode n :: ms)
  | .word t, _, _, rest => by
    rw [compactNode]
    exact .word t rest
  | .separator t, _, _, rest => by
    rw [compactNode]
    exact .separator t rest
  | .call name args, _, _, rest => by
    rw [compactNode]
    exact .call name (pruned_compact [] args) rest

/-- Canonical spacing deletes blank separators. -/
theorem pruned_compact (before : List Node) : (ns : List Node) → Pruned ns (compact before ns)
  | [] => by
    rw [compact]
    exact .nil
  | n :: after => by
    have later := pruned_compact (n :: before) after
    rw [compact]
    split
    · rename_i dropped
      obtain ⟨t, rfl, blank⟩ := blank_of_dropped dropped
      exact .drop blank later
    · exact prunedNode_compact n after _ later

end

/-- Joined words are no operator. -/
theorem isOperator_joined {t u : Text} (some_left : t ≠ []) (some_right : u ≠ []) :
    (Node.word (t ++ u)).isOperator = false := by
  obtain ⟨c, t, rfl⟩ := List.exists_cons_of_ne_nil some_left
  rw [List.cons_append, isOperator_cons]
  simp [some_right]

namespace Fused

variable {ns ms : List Node}

theorem head_eq (fused : Fused ns ms) :
    ms.isEmpty = ns.isEmpty ∧ headSeparator ms = headSeparator ns := by
  cases fused with
  | word _ _ joined => cases joined <;> exact ⟨rfl, rfl⟩
  | separator _ joined => cases joined <;> exact ⟨rfl, rfl⟩
  | _ => exact ⟨rfl, rfl⟩

/-- A separator that stands alone is joined with nothing. -/
theorem separator_eq {fs : List Node} {t : Text} (fused : Fused ns ms) (alone : headSeparator ns = false)
    (joined : Joined (.separator t) ms fs) : fs = .separator t :: ms := by
  cases joined with
  | separator _ u ns =>
    rw [← fused.head_eq.2] at alone
    cases alone
  | apart => rfl

theorem word_ne_nil {u : Text} (fused : Fused ns (.word u :: ms)) : u ≠ [] := by
  cases fused with
  | word some_left _ joined =>
    cases joined with
    | word t u ns => simp [some_left]
    | apart => exact some_left
  | separator _ joined => cases joined

end Fused

namespace Compacted

variable {before ns ms : List Node}

theorem headSpace_eq (compacted : Compacted before ns) (fused : Fused ns ms) :
    headSpace ms = headSpace ns := by
  cases fused with
  | word _ _ joined => cases joined <;> rfl
  | separator rest joined =>
    cases compacted with
    | separator alone => rw [rest.separator_eq alone joined]; rfl
  | _ => rfl

/-- A spaced operator was one before words were joined. -/
theorem spacedOperator_of_fused (compacted : Compacted before ns) (fused : Fused ns ms)
    (spaced : spacedOperator ms = true) : spacedOperator ns = true := by
  cases fused with
  | nil => exact spaced
  | @word t _ ms _ some_left rest joined =>
    cases joined with
    | word _ u ms => simp [spacedOperator_cons, isOperator_joined some_left rest.word_ne_nil] at spaced
    | name => simp [spacedOperator_cons, Node.isOperator] at spaced
    | apart =>
      cases compacted with
      | word compacted => rwa [spacedOperator_cons, compacted.headSpace_eq rest, ← spacedOperator_cons] at spaced
  | separator _ joined => cases joined <;> simp [spacedOperator_cons, Node.isOperator] at spaced
  | call => simp [spacedOperator_cons, Node.isOperator] at spaced

/-- Joining words leaves nothing to delete. -/
theorem fused (compacted : Compacted before ns) (fused : Fused ns ms) : Compacted before ms := by
  induction compacted generalizing ms with
  | nil =>
    cases fused
    exact .nil _
  | @word before t ns compacted ih =>
    cases fused with
    | word some_left rest joined =>
      have later := ih rest
      cases joined with
      | word _ u ms =>
        have alike : Alike (.word u :: .word t :: before) (.word (t ++ u) :: before) :=
          ⟨rfl, by simp [spacedOperator_cons, isOperator_joined some_left rest.word_ne_nil, headSpace,
            Node.isSpace], rfl⟩
        cases later with
        | word later => exact .word (later.congr alike)
      | name _ name args ms =>
        cases later with
        | call inside later => exact .call inside (later.congr (.call _ _ _ _ _ _))
      | apart => exact .word later
  | @separator before t ns alone stays compacted ih =>
    cases fused with
    | separator rest joined =>
      obtain rfl := rest.separator_eq alone joined
      obtain ⟨empty, separator⟩ := rest.head_eq
      refine .separator (separator.trans alone) (Bool.eq_false_iff.mpr fun dropped => ?_) (ih rest)
      refine Bool.eq_false_iff.mp stays
        (isDropped_mono id id ?_ (compacted.spacedOperator_of_fused rest) dropped)
      rw [empty]
      exact id
  | @call before name args ns _ _ inside ih =>
    cases fused with
    | call _ fused rest => exact .call (inside fused) ((ih rest).congr (.call _ _ _ _ _ _))

end Compacted

/-- The text in its canonical spacing is read as its siblings were, with words joined. -/
theorem fused_compactText (t : Text) : Fused (compact [] (parse t)) (parse (compactText t)) := by
  rw [compactText_eq_compact]
  exact parse_pruned (pruned_compact [] (parse t))

/-- Canonical spacing that is done twice is done once, whether or not the parentheses match. -/
theorem compactText_again (t : Text) : compactText (compactText t) = compactText t := by
  have compacted := compacted_compact (parted_parse t) (fun _ => rfl) (.refl [])
  rw [compactText_eq_compact, (compacted.fused (fused_compactText t)).compact_eq, render_parse]

/-- Canonical spacing deletes whole separators of the tree, all of them blank, and so only blank
characters that are read outside of quotes and escapes. Where it comes again it deletes nothing. -/
theorem compactText_deletes_separators (t : Text) :
    (∃ kept, Pruned (parse t) kept ∧ render (parse t) = t ∧ render kept = compactText t) ∧
      Thinned .plain t (compactText t) ∧ compactText (compactText t) = compactText t := by
  have kept := (compactText_eq_compact t).symm
  exact ⟨⟨_, pruned_compact [] (parse t), render_parse t, kept⟩, thinned_compactText t, compactText_again t⟩

end AtomicCss.Value
