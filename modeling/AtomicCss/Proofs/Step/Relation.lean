import AtomicCss.Proofs.Text.Cut
import AtomicCss.Proofs.Text.Name
import AtomicCss.Proofs.Text.Replacement
import AtomicCss.Proofs.Text.Trim
import AtomicCss.Step.Relation

/-! Which branches of a selector list a relation reaches. The marker takes the place
of each `&` without opening or closing anything, so that the list keeps its
branches. The combinator is written once, behind the whole list, and so it belongs
to the last branch alone. -/
namespace AtomicCss.Step
open Text

/-- The text separates nothing and leaves quotes and brackets as they were. -/
def Steady (u : Text) : Prop :=
  ∀ s closers rest, Scan.Settled s →
    segmentFrom ',' s closers (u ++ rest) = glue u (segmentFrom ',' s closers rest)

theorem segmentFrom_neutral {c : Char} (neutral : Neutral c) (other : c ≠ ',') {s : Scan}
    (sound : s.Sound) (closers : List Char) (rest : Text) :
    segmentFrom ',' s closers (c :: rest) =
      consHead c (segmentFrom ',' s.settle closers rest) := by
  obtain ⟨same, due⟩ := due_of_turn (turn_neutral (p := (s, closers)) sound neutral)
  rw [segmentFrom, if_neg (by simp [other]), due, ← same]

namespace Steady

theorem nil : Steady [] := fun _ _ _ _ => (glue_nil (segmentFrom_ne_nil _ _ _ _)).symm

theorem append {u v : Text} (first : Steady u) (second : Steady v) : Steady (u ++ v) := by
  intro s closers rest settled
  rw [List.append_assoc, first s closers _ settled, second s closers rest settled, glue_glue]

theorem neutral {c : Char} (neutral : Neutral c) (other : c ≠ ',') : Steady [c] := by
  intro s closers rest settled
  rw [List.singleton_append, segmentFrom_neutral neutral other settled.1, settled.2]
  cases segmentFrom ',' s closers rest <;> rfl

theorem escape (c : Char) : Steady ['\\', c] := by
  intro s closers rest ⟨sound, settled⟩
  cases s with
  | plain =>
    simp [segmentFrom, Scan.live, Scan.next]
    cases segmentFrom ',' .plain closers rest <;> rfl
  | quoted q =>
    have other : '\\' ≠ q := by
      rintro rfl
      cases sound
    simp [segmentFrom, Scan.live, Scan.next]
    cases segmentFrom ',' (.quoted q) closers rest <;> rfl
  | escaped => cases settled
  | quotedEscaped => cases settled

theorem ofNeutral {u : Text} (neutrals : ∀ c ∈ u, Neutral c ∧ c ≠ ',') : Steady u := by
  induction u with
  | nil => exact nil
  | cons c u ih =>
    obtain ⟨inert, other⟩ := neutrals c List.mem_cons_self
    exact (neutral inert other).append (ih fun d member => neutrals d (List.mem_cons_of_mem c member))

/-- A steady text stays steady between parentheses. -/
theorem enclosed {u : Text} (steady : Steady u) : Steady ('(' :: (u ++ [')'])) := by
  intro s closers rest settled
  cases s with
  | plain =>
    have inside := steady .plain (')' :: closers) (')' :: rest) settled
    have opening : segmentFrom ',' .plain closers ('(' :: (u ++ ')' :: rest)) =
        consHead '(' (segmentFrom ',' .plain (')' :: closers) (u ++ ')' :: rest)) := rfl
    have closing : segmentFrom ',' .plain (')' :: closers) (')' :: rest) =
        consHead ')' (segmentFrom ',' .plain closers rest) := by
      rw [segmentFrom, if_neg (by simp)]
      rfl
    rw [List.cons_append, List.append_assoc, List.singleton_append, opening, inside, closing]
    cases segmentFrom ',' .plain closers rest <;> simp [glue, consHead]
  | quoted q =>
    have inside := steady (.quoted q) closers (')' :: rest) settled
    have covered {c : Char} (other : c ≠ '\\') (unquoted : c ≠ q) (rest : Text) :
        segmentFrom ',' (.quoted q) closers (c :: rest) =
          consHead c (segmentFrom ',' (.quoted q) closers rest) := by
      simp [segmentFrom, Scan.live, Scan.next, other, unquoted]
    have apart {c : Char} (plain : Scan.isQuote c = false) : c ≠ q := by
      rintro rfl
      rw [settled.1] at plain
      cases plain
    rw [List.cons_append, List.append_assoc, List.singleton_append,
      covered (by decide) (apart rfl), inside, covered (by decide) (apart rfl)]
    cases segmentFrom ',' (.quoted q) closers rest <;> simp [glue, consHead]
  | escaped => cases settled.2
  | quotedEscaped => cases settled.2

end Steady

/-- A character that gets no backslash has no meaning. -/
theorem neutral_of_bare {c : Char} (bare : Css.needsBackslash c = false) : Neutral c ∧ c ≠ ',' := by
  refine ⟨neutral_of_class (p := fun d => !Css.needsBackslash d) rfl (by simp [bare]), ?_⟩
  rintro rfl
  cases bare

/-- An escaped class is put together of escapes and characters without a meaning. -/
theorem escapeClass_induction {motive : Text → Prop} (nil : motive [])
    (append : ∀ {u v}, motive u → motive v → motive (u ++ v)) (escape : ∀ c, motive ['\\', c])
    (neutral : ∀ {c}, Neutral c → c ≠ ',' → motive [c]) (t : Text) : motive (Css.escapeClass t) := by
  have char (c : Char) : motive (Css.escapeChar c) := by
    unfold Css.escapeChar
    split
    · exact escape c
    · rename_i bare
      obtain ⟨inert, other⟩ := neutral_of_bare (by simpa using bare)
      exact neutral inert other
  have chars (u : Text) : motive (u.flatMap Css.escapeChar) := by
    induction u with
    | nil => exact nil
    | cons c u ih =>
      rw [List.flatMap_cons]
      exact append (char c) ih
  cases t with
  | nil => exact nil
  | cons c t =>
    rw [Css.escapeClass]
    refine append ?_ (chars t)
    split
    · rename_i digit
      have name : isNameChar c = true := by simp [isNameChar, isAlphanum_iff.mpr (.inr digit)]
      have inert := neutral (neutral_of_isNameChar name) (ne_of_isNameChar name (by decide))
      have blank : motive [' '] := neutral (by decide) (by decide)
      exact append (escape '3') (append inert blank)
    · exact char c

theorem Steady.escapedClass (t : Text) : Steady (Css.escapeClass t) :=
  escapeClass_induction .nil .append .escape .neutral t

theorem closed_escapeClass (t : Text) : Closed (Css.escapeClass t) := by
  refine escapeClass_induction (motive := Closed) rfl Closed.append (fun c => ?_)
    (fun inert _ => closed_neutral inert) t
  have behind : turn (.plain, []) '\\' = some (.escaped, []) := rfl
  rw [Closed, track_cons, behind, Option.bind_some, track_cons, turn_escaped]
  rfl

/-- An escaped class is one character in a selector list. -/
theorem solid_escapeClass (t : Text) : Solid ',' (Css.escapeClass t) :=
  ⟨closed_escapeClass t, fun b => Steady.escapedClass t .plain [] b Scan.settled_plain⟩

/-- The marker takes the place of one character that has no meaning. -/
theorem segmentFrom_marker {class_ : Text} {modifier : Option Argument}
    (name : modifier = none → ∀ c ∈ class_, Neutral c ∧ c ≠ ',') {s : Scan} (sound : s.Sound)
    (closers : List Char) (rest : Text) :
    segmentFrom ',' s closers (marker class_ modifier ++ rest) =
      glue (marker class_ modifier) (segmentFrom ',' s.settle closers rest) := by
  have named (u : Text) (steady : Steady u) :
      segmentFrom ',' s closers ((":where(." ++ u ++ ")") ++ rest) =
        glue (":where(." ++ u ++ ")") (segmentFrom ',' s.settle closers rest) := by
    have word : Steady ("where".toList ++ ('(' :: (('.' :: u) ++ [')']))) :=
      (Steady.ofNeutral (forall_of_all rfl)).append
        (.enclosed ((Steady.neutral (c := '.') (by decide) (by decide)).append steady))
    have whole : ":where(." ++ u ++ ")" = ':' :: ("where".toList ++ ('(' :: (('.' :: u) ++ [')']))) := by
      simp
    rw [whole, List.cons_append, segmentFrom_neutral (by decide) (by decide) sound,
      word s.settle closers rest (Scan.settled_settle sound), consHead_glue]
  unfold marker
  cases modifier with
  | some m => exact named _ (.escapedClass _)
  | none => exact named _ (.ofNeutral (name rfl))

theorem map_replace_consHead (c : Char) (mark : Text) {pieces : List Text} (some_piece : pieces ≠ []) :
    (consHead c pieces).map (replace '&' mark) =
      glue (replace '&' mark [c]) (pieces.map (replace '&' mark)) := by
  obtain ⟨piece, pieces, rfl⟩ := List.exists_cons_of_ne_nil some_piece
  simp [consHead, glue, replace]

/-- Putting the marker in keeps the branches. -/
theorem segment_marked {class_ : Text} {modifier : Option Argument}
    (name : modifier = none → ∀ c ∈ class_, Neutral c ∧ c ≠ ',') (t : Text) :
    segment ',' (replace '&' (marker class_ modifier) t) =
      (segment ',' t).map (replace '&' (marker class_ modifier)) := by
  suffices general : ∀ s : Scan, s.Sound → ∀ closers,
      segmentFrom ',' s closers (replace '&' (marker class_ modifier) t) =
        (segmentFrom ',' s closers t).map (replace '&' (marker class_ modifier)) from
    general .plain trivial []
  induction t with
  | nil => intro s _ closers; rfl
  | cons c t ih =>
    intro s sound closers
    have pieces := segmentFrom_ne_nil ',' s.settle closers t
    by_cases amp : c = '&'
    · subst amp
      have marked : replace '&' (marker class_ modifier) ('&' :: t) =
          marker class_ modifier ++ replace '&' (marker class_ modifier) t := rfl
      rw [marked, segmentFrom_marker name sound, ih _ (Scan.sound_settle sound),
        segmentFrom_neutral (by decide) (by decide) sound, map_replace_consHead _ _ pieces]
      simp [replace]
    · have kept : replace '&' (marker class_ modifier) (c :: t) =
          c :: replace '&' (marker class_ modifier) t := by simp [replace, amp]
      rw [kept, segmentFrom, segmentFrom]
      split
      · rw [ih _ (Scan.sound_next sound c)]
        rfl
      · rw [ih _ (Scan.sound_next sound c), map_replace_consHead _ _ (segmentFrom_ne_nil _ _ _ _)]
        simp only [replace, List.flatMap_cons, amp, if_false, List.flatMap_nil, List.append_nil]
        cases segmentFrom ',' (s.next c) _ t <;> rfl

/-- The text behind the last branch. -/
def appendLast (tail : Text) : List Text → List Text
  | [] => [tail]
  | [piece] => [piece ++ tail]
  | piece :: next :: pieces => piece :: appendLast tail (next :: pieces)

theorem consHead_appendLast (c : Char) (tail : Text) {pieces : List Text} (some_piece : pieces ≠ []) :
    appendLast tail (consHead c pieces) = consHead c (appendLast tail pieces) := by
  obtain ⟨piece, pieces, rfl⟩ := List.exists_cons_of_ne_nil some_piece
  cases pieces <;> rfl

/-- What holds no comma goes to the last branch. -/
theorem segment_behind {tail : Text} (commaless : ',' ∉ tail) (t : Text) :
    segment ',' (t ++ tail) = appendLast tail (segment ',' t) := by
  have alone (s : Scan) (closers : List Char) : segmentFrom ',' s closers tail = [tail] := by
    induction tail generalizing s closers with
    | nil => rfl
    | cons c tail ih =>
      simp only [List.mem_cons, not_or] at commaless
      rw [segmentFrom, if_neg (by simp [Ne.symm commaless.1]), ih commaless.2]
      rfl
  suffices general : ∀ s closers, segmentFrom ',' s closers (t ++ tail) =
      appendLast tail (segmentFrom ',' s closers t) from general .plain []
  induction t with
  | nil => exact alone
  | cons c t ih =>
    intro s closers
    rw [List.cons_append, segmentFrom, segmentFrom]
    split
    · rw [ih]
      obtain ⟨piece, pieces, cut⟩ :=
        List.exists_cons_of_ne_nil (segmentFrom_ne_nil ',' (s.next c) closers t)
      rw [cut]
      rfl
    · rw [ih, consHead_appendLast c tail (segmentFrom_ne_nil _ _ _ _)]

/-- The branches of `inner` are those of `selector`, each one written anew. -/
def Distributes (write : Text → Text) (selector inner : Text) : Prop :=
  (segment ',' inner).map trim = (segment ',' selector).map fun branch => trim (write branch)

instance (write : Text → Text) (selector inner : Text) : Decidable (Distributes write selector inner) :=
  inferInstanceAs (Decidable (_ = _))

/-- What goes to the last branch has gone to all of them only if there is one. -/
theorem appendLast_iff {tail head first : Text} (visible : ink tail ≠ []) {rest others : List Text}
    {wanted : Text → Text} (wide : (ink head).length ≤ (ink (wanted first)).length)
    (same : rest.length = others.length) (single : others = [] → head = wanted first) :
    (appendLast tail (head :: rest)).map trim =
        (first :: others).map (fun branch => trim (wanted branch ++ tail)) ↔
      (first :: others).length = 1 := by
  cases others with
  | nil =>
    obtain rfl := List.eq_nil_of_length_eq_zero same
    simp [appendLast, single rfl]
  | cons next others =>
    obtain ⟨_, rest, rfl⟩ := List.exists_cons_of_length_eq_add_one same
    refine iff_of_false (fun same => ?_) (by simp)
    simp only [List.map_cons, appendLast, List.cons.injEq] at same
    have inks := congrArg ink same.1
    rw [ink_trim, ink_trim, ink_append] at inks
    have lengths := congrArg List.length inks
    rw [List.length_append] at lengths
    have longer := List.length_pos_iff.mpr visible
    omega

/-- A branch that does not say where the marked element stands is a condition
on that element. -/
def onMarked (mark branch : Text) : Text :=
  if branch.contains '&' then replace '&' mark branch else mark ++ branch

theorem ink_onMarked (mark branch : Text) :
    (ink (replace '&' mark branch)).length ≤ (ink (onMarked mark branch)).length := by
  unfold onMarked
  split
  · exact le_refl _
  · rename_i absent
    rw [replace_absent (by simpa using absent), ink_append, List.length_append]
    omega

/-- The branches between the parentheses of `&:is( )` after a relation. -/
theorem segment_onMarked {class_ : Text} {modifier : Option Argument}
    (name : modifier = none → ∀ c ∈ class_, Neutral c ∧ c ≠ ',') (t : Text) :
    segment ',' (onMarked (marker class_ modifier) t) =
      if t.contains '&' then (segment ',' t).map (replace '&' (marker class_ modifier))
      else glue (marker class_ modifier) (segment ',' t) := by
  unfold onMarked
  split
  · exact segment_marked name t
  · exact segmentFrom_marker name (s := .plain) trivial [] t

/-- With the marker in the place of each `&`, the text behind reaches the last branch only. -/
theorem marked_distributes_iff {class_ tail : Text} {modifier : Option Argument}
    (name : modifier = none → ∀ c ∈ class_, Neutral c ∧ c ≠ ',') (commaless : ',' ∉ tail)
    (visible : ink tail ≠ []) (t : Text) :
    segment ',' (replace '&' (marker class_ modifier) t ++ tail) =
        appendLast tail ((segment ',' t).map (replace '&' (marker class_ modifier))) ∧
      (Distributes (fun branch => replace '&' (marker class_ modifier) branch ++ tail) t
          (replace '&' (marker class_ modifier) t ++ tail) ↔ (segment ',' t).length = 1) := by
  have cut := segment_behind commaless (replace '&' (marker class_ modifier) t)
  rw [segment_marked name] at cut
  refine ⟨cut, ?_⟩
  obtain ⟨first, others, pieces⟩ := List.exists_cons_of_ne_nil (segment_ne_nil ',' t)
  rw [Distributes, cut, pieces, List.map_cons]
  exact appendLast_iff visible (le_refl _) (by simp) fun _ => rfl

/-- Between brackets it is the same, but a text without `&` has the marker in front. -/
theorem onMarked_distributes_iff {class_ tail : Text} {modifier : Option Argument}
    (name : modifier = none → ∀ c ∈ class_, Neutral c ∧ c ≠ ',') (commaless : ',' ∉ tail)
    (visible : ink tail ≠ []) (t : Text) :
    segment ',' (onMarked (marker class_ modifier) t ++ tail) =
        appendLast tail
          (if t.contains '&' then (segment ',' t).map (replace '&' (marker class_ modifier))
          else glue (marker class_ modifier) (segment ',' t)) ∧
      (Distributes (fun branch => onMarked (marker class_ modifier) branch ++ tail) t
          (onMarked (marker class_ modifier) t ++ tail) ↔ (segment ',' t).length = 1) := by
  have cut := segment_behind commaless (onMarked (marker class_ modifier) t)
  rw [segment_onMarked name] at cut
  refine ⟨cut, ?_⟩
  obtain ⟨first, others, pieces⟩ := List.exists_cons_of_ne_nil (segment_ne_nil ',' t)
  have alone (none_else : others = []) : first = t := segment_alone (none_else ▸ pieces)
  rw [Distributes, cut, pieces]
  split
  · rename_i amp
    refine appendLast_iff visible (ink_onMarked _ _) (by simp) fun none_else => ?_
    rw [alone none_else, onMarked, if_pos amp]
  · rename_i absent
    have bare : ¬ first.contains '&' = true := by
      intro member
      have inside := mem_of_mem_segment (pieces ▸ List.mem_cons_self) (List.contains_iff_mem.mp member)
      exact absent (List.contains_iff_mem.mpr inside)
    refine appendLast_iff visible ?_ rfl fun none_else => ?_
    · rw [onMarked, if_neg bare]
    · rw [alone none_else, onMarked, if_neg absent]

/-- A relation writes `&:is( )` around the branches of the selector with the marker
in the place of each `&`. Its combinator goes behind the last branch, so that every
branch has it exactly when there is one. Between brackets it is the same, but there
a text without `&` has the marker in front of its first branch only. -/
theorem relation_reaches_branches_iff {class_ combinator : Text} {modifier : Option Argument}
    (name : modifier = none → ∀ c ∈ class_, Neutral c ∧ c ≠ ',') (commaless : ',' ∉ combinator) :
    (∀ steps : List Step, steps.any isSelector = true → ∃ inner,
      relation class_ combinator steps modifier =
        some ((Composition.ofSteps steps).atRules.map .atRule ++
          [.selector ("&:is(" ++ inner ++ ")")]) ∧
      segment ',' inner = appendLast (combinator ++ "*")
        ((segment ',' (Composition.ofSteps steps).selector).map
          (replace '&' (marker class_ modifier))) ∧
      (Distributes (fun branch => replace '&' (marker class_ modifier) branch ++ (combinator ++ "*"))
          (Composition.ofSteps steps).selector inner ↔
        (segment ',' (Composition.ofSteps steps).selector).length = 1)) ∧
    ∀ t : Text, ∃ inner,
      relationArbitrary class_ combinator (some (.arbitrary t)) modifier =
        some [.selector ("&:is(" ++ inner ++ ")")] ∧
      segment ',' inner = appendLast (combinator ++ "*")
        (if t.contains '&' then (segment ',' t).map (replace '&' (marker class_ modifier))
        else glue (marker class_ modifier) (segment ',' t)) ∧
      (Distributes (fun branch => onMarked (marker class_ modifier) branch ++ (combinator ++ "*"))
          t inner ↔
        (segment ',' t).length = 1) := by
  have tailless : ',' ∉ combinator ++ "*" := by simpa using commaless
  have visible : ink (combinator ++ "*") ≠ [] := by
    rw [ink_append]
    exact List.append_ne_nil_of_right_ne_nil _ (by decide)
  refine ⟨fun steps some_selector => ?_, fun t => ?_⟩
  · refine ⟨replace '&' (marker class_ modifier) (Composition.ofSteps steps).selector ++
      (combinator ++ "*"), ?_, marked_distributes_iff name tailless visible _⟩
    simp [relation, wrapSelector, some_selector]
  · refine ⟨onMarked (marker class_ modifier) t ++ (combinator ++ "*"), ?_,
      onMarked_distributes_iff name tailless visible t⟩
    simp [relationArbitrary, onMarked]

/-- A comma inside `:is( )` separates no branches, so the only branch has the combinator. -/
theorem hidden_comma_keeps_relation :
    ∃ inner, relation "peer" " ~ " [.selector "&:is(.a, .b)"] none =
        some [.selector ("&:is(" ++ inner ++ ")")] ∧
      Distributes (fun branch => replace '&' (marker "peer" none) branch ++ (" ~ " ++ "*"))
        "&:is(.a, .b)" inner := by
  obtain ⟨inner, written, -, every⟩ :=
    (@relation_reaches_branches_iff "peer" " ~ " none (fun _ => forall_of_all rfl) (by decide)).1
      [.selector "&:is(.a, .b)"] rfl
  exact ⟨inner, written, every.mpr (by decide)⟩

/-- Only the last of two branches has the combinator. -/
theorem first_branch_unrelated :
    relation "group" " " [.selector "&:hover, &:focus"] none =
        some [.selector ("&:is(" ++ ":where(.group):hover, :where(.group):focus *" ++ ")")] ∧
      ¬ Distributes (fun branch => replace '&' (marker "group" none) branch ++ (" " ++ "*"))
        "&:hover, &:focus" ":where(.group):hover, :where(.group):focus *" := by
  decide

end AtomicCss.Step
