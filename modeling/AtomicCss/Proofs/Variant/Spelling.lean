import AtomicCss.Proofs.Arbitrary.Respelling
import AtomicCss.Proofs.Text.Cut
import AtomicCss.Proofs.Text.Name
import AtomicCss.Variant.Grammar

/-! The grammar of variants as a relation between texts and what they spell,
without scanners and without an order of attempts. The reader accepts a
balanced text exactly when the grammar spells it. -/
namespace AtomicCss
open Text

theorem nameLike_of_isNamedValue {t : Text} (named : isNamedValue t = true) :
    NameLike t ∧ t ≠ [] ∧ '-' ∉ t := by
  simp only [isNamedValue, Bool.and_eq_true, Bool.not_eq_true', List.isEmpty_eq_false_iff,
    List.all_eq_true] at named
  refine ⟨fun c member => ?_, named.1, fun member => ?_⟩
  · have part := named.2 c member
    simp only [Bool.or_eq_true] at part
    simp only [isNameChar, Bool.or_eq_true]
    rcases part with ((alnum | dot) | percent) | low <;> simp_all
  · exact absurd (named.2 _ member) (by decide)

theorem nameLike_of_isNamedModifier {t : Text} (named : isNamedModifier t = true) :
    NameLike t ∧ t ≠ [] := by
  simp only [isNamedModifier, Bool.and_eq_true, Bool.not_eq_true', List.isEmpty_eq_false_iff,
    List.all_eq_true] at named
  refine ⟨fun c member => ?_, named.1⟩
  have part := named.2 c member
  simp only [Bool.or_eq_true] at part
  simp only [isNameChar, Bool.or_eq_true]
  rcases part with (((alnum | dot) | percent) | low) | dash <;> simp_all

theorem bracketed_eq_some {t inner : Text} (holds : balanced t = true) :
    Argument.bracketed? t = some inner ↔ t = '[' :: (inner ++ [']']) ∧ Closed inner := by
  unfold Argument.bracketed?
  constructor
  · intro read
    split at read
    · rename_i found
      cases read
      obtain ⟨whole, -, inside⟩ := closed_of_splitClosing holds found
      exact ⟨whole, inside⟩
    · cases read
  · rintro ⟨rfl, inside⟩
    have found := splitClosing_bracketed (a := []) rfl inside
    rw [List.nil_append] at found
    rw [found]

/-- Brackets behind a root and a dash come off as they were put on. -/
theorem split_rooted {root inner : Text} (name : NameLike root) (closed : Closed inner) :
    (root ++ '-' :: '[' :: (inner ++ [']'])).getLast? = some ']' ∧
      splitClosing? (root ++ '-' :: '[' :: (inner ++ [']'])) = some (root ++ ['-'], inner) ∧
      stripEnd? ['-'] (root ++ ['-']) = some root := by
  have dashed := name.closed.append
    (closed_neutral (c := '-') (by decide))
  have found := splitClosing_bracketed dashed closed
  exact ⟨by simp [List.getLast?_append, List.getLast?_cons], by simpa using found,
    stripEnd_eq_some.mpr rfl⟩

/-- A modifier with its slash, or nothing. -/
inductive ModifierSpelt : Text → Option Argument → Prop
  | none : ModifierSpelt [] none
  | named {t : Text} (named : isNamedModifier t = true) : ModifierSpelt ('/' :: t) (some (.named t))
  | arbitrary {inner v : Text} (closed : Closed inner)
    (read : Arbitrary.decodeTrimmed inner = some v) :
    ModifierSpelt ('/' :: '[' :: (inner ++ [']'])) (some (.arbitrary v))

namespace ModifierSpelt

theorem read {t : Text} {m : Option Argument} (holds : balanced t = true)
    (read : Argument.modifier? t = m) (known : m.isSome = true) : ModifierSpelt ('/' :: t) m := by
  unfold Argument.modifier? at read
  split at read
  · subst read
    obtain ⟨w, found⟩ := Option.isSome_iff_exists.mp known
    rw [found]
    obtain ⟨v, inside, rfl⟩ := Option.map_eq_some_iff.mp found
    obtain ⟨inner, bracketed, decoded⟩ := Option.bind_eq_some_iff.mp inside
    obtain ⟨rfl, closed⟩ := (bracketed_eq_some holds).mp bracketed
    exact .arbitrary closed decoded
  · split at read
    · rename_i named
      subst read
      exact .named named
    · subst read
      cases known

theorem solid {t : Text} {m : Option Argument} (spelt : ModifierSpelt t m) : Solid ':' t := by
  cases spelt with
  | none => exact .nil
  | named named =>
    exact (Solid.neutral (c := '/') (by decide) (by decide)).append
      ((nameLike_of_isNamedModifier named).1.solid (by decide))
  | arbitrary closed _ =>
    exact (Solid.neutral (c := '/') (by decide) (by decide)).append (.bracketed closed)

/-- The modifier comes off at its slash. -/
theorem split {main t : Text} {m : Option Argument} (solid : Solid '/' main)
    (spelt : ModifierSpelt t m) : splitModifier? (main ++ t) = some (main, m) := by
  unfold splitModifier?
  cases spelt with
  | none => rw [List.append_nil, solid.segment_eq]
  | @named t named =>
    obtain ⟨name, some_left⟩ := nameLike_of_isNamedModifier named
    have pieces : segment '/' (joinWith ['/'] [main, t]) = [main, t] :=
      segment_joinWith (by decide) (by simpa using ⟨solid, name.solid (by decide)⟩)
    have read : Argument.modifier? t = some (.named t) := by
      rw [Argument.modifier?, if_neg (name.head_ne (by decide)), if_pos named]
    rw [show main ++ '/' :: t = joinWith ['/'] [main, t] by
      simp [joinWith, List.intercalate], pieces]
    simp [read]
  | @arbitrary inner v closed decoded =>
    have pieces : segment '/' (joinWith ['/'] [main, '[' :: (inner ++ [']'])]) =
        [main, '[' :: (inner ++ [']'])] :=
      segment_joinWith (by decide) (by simpa using ⟨solid, Solid.bracketed closed⟩)
    have bracketed := (bracketed_eq_some (closed_bracketed closed).balanced).mpr ⟨rfl, closed⟩
    have read : Argument.modifier? ('[' :: (inner ++ [']'])) = some (.arbitrary v) := by
      simp [Argument.modifier?, bracketed, decoded]
    rw [show main ++ '/' :: '[' :: (inner ++ [']']) = joinWith ['/'] [main, '[' :: (inner ++ [']'])] by
      simp [joinWith, List.intercalate], pieces]
    simp [read]

end ModifierSpelt

/-- What splitting the modifier off says about a balanced text. -/
theorem splitModifier_eq_some {t main : Text} {m : Option Argument} (holds : balanced t = true)
    (found : splitModifier? t = some (main, m)) :
    ∃ rest, t = main ++ rest ∧ ModifierSpelt rest m ∧ balanced main = true := by
  have whole := joinWith_segment '/' t
  have pieces {piece : Text} (member : piece ∈ segment '/' t) := balanced_of_mem_segment holds member
  unfold splitModifier? at found
  split at found
  · rename_i only
    cases found
    rw [only] at whole pieces
    refine ⟨[], ?_, .none, pieces (by simp)⟩
    rw [← whole]
    simp [joinWith, List.intercalate]
  · rename_i modifier both
    obtain ⟨m', read, same⟩ := Option.map_eq_some_iff.mp found
    cases same
    rw [both] at whole pieces
    refine ⟨'/' :: modifier, ?_, .read (pieces (by simp)) read rfl, pieces (by simp)⟩
    rw [← whole]
    simp [joinWith, List.intercalate]
  · cases found

namespace Variant

theorem isRoot_append {root t : Text} (some_left : root ≠ []) : isRoot (root ++ t) = true ↔
    isRoot root = true ∧ ∀ c ∈ t, (c.isAlphanum || c == '-' || c == '_') = true := by
  obtain ⟨c, root, rfl⟩ := List.exists_cons_of_ne_nil some_left
  simp only [List.cons_append, isRoot, Bool.and_eq_true, List.all_eq_true, List.forall_mem_append,
    and_assoc]

theorem nameLike_of_isRoot {t : Text} (root : isRoot t = true) :
    NameLike t ∧ t ≠ [] ∧ t.head? ≠ some '-' := by
  cases t with
  | nil => simp [isRoot] at root
  | cons c rest =>
    simp only [isRoot, Bool.and_eq_true, Bool.or_eq_true, beq_iff_eq, List.all_eq_true] at root
    refine ⟨.cons ?_ fun d member => ?_, by simp, ?_⟩
    · rcases root.1 with alnum | rfl
      · simp [isNameChar, alnum]
      · rfl
    · have part := root.2 d member
      simp only [isNameChar, Bool.or_eq_true, beq_iff_eq]
      rcases part with (alnum | dash) | low <;> simp_all
    · rintro head
      cases head
      simp at root

/-- The root does not begin with the name of a compound variant and a dash. -/
def Uncompounded (root : Text) : Prop := ∀ compound ∈ compoundRoots, ¬ (compound ++ ['-']) <+: root

theorem nameLike_of_compoundRoot {root : Text} (known : root ∈ compoundRoots) :
    NameLike root ∧ root ≠ [] ∧ '-' ∉ root := by
  have all : ∀ r ∈ compoundRoots, r.all isNameChar = true ∧ r ≠ [] ∧ '-' ∉ r := by decide
  obtain ⟨name, rest⟩ := all root known
  exact ⟨List.all_eq_true.mp name, rest⟩

theorem splitCompound_eq_some {t root inner : Text} :
    splitCompound? t = some (root, inner) ↔ root ∈ compoundRoots ∧ t = root ++ '-' :: inner ∧
      inner ≠ [] ∧ inner.head? ≠ some '[' := by
  have sound {r i : Text} (found : splitCompound? t = some (r, i)) :
      r ∈ compoundRoots ∧ t = r ++ '-' :: i ∧ i ≠ [] ∧ i.head? ≠ some '[' := by
    obtain ⟨r, member, found⟩ := List.exists_of_findSome?_eq_some found
    split at found
    · rename_i c rest lead
      split at found
      · cases found
      · rename_i other
        cases found
        exact ⟨member, by simpa using stripStart_eq_some.mp lead, by simp, by simpa using other⟩
    · cases found
  refine ⟨sound, ?_⟩
  rintro ⟨member, whole, some_left, other⟩
  cases found : splitCompound? t with
  | none =>
    have missed := List.findSome?_eq_none_iff.mp found root member
    obtain ⟨c, rest, rfl⟩ := List.exists_cons_of_ne_nil some_left
    have lead : stripStart? (root ++ ['-']) t = some (c :: rest) :=
      stripStart_eq_some.mpr (by simpa using whole)
    have live : c ≠ '[' := by simpa using other
    simp [lead, live] at missed
  | some cut =>
    -- No compound root holds a dash, so only one of them leads the text.
    obtain ⟨r, i⟩ := cut
    obtain ⟨known, same, -⟩ := sound found
    obtain ⟨rfl, rfl⟩ := first_unique (same.symm.trans whole) (nameLike_of_compoundRoot known).2.2
      (nameLike_of_compoundRoot member).2.2
    rfl

/-- A compound root in front of the root is found, whatever stands behind the root. -/
theorem uncompounded_of_whole {root tail : Text} (name : NameLike root)
    (absent : splitCompound? (root ++ '-' :: tail) = none) : Uncompounded root := by
  rintro compound known ⟨behind, rfl⟩
  have other : (behind ++ '-' :: tail).head? ≠ some '[' := by
    cases behind with
    | nil => simp
    | cons c behind =>
      have other := ne_of_isNameChar (name c (by simp)) (d := '[') (by decide)
      simpa using other
  have found : splitCompound? (compound ++ ['-'] ++ behind ++ '-' :: tail) =
      some (compound, behind ++ '-' :: tail) := splitCompound_eq_some.mpr ⟨known, by simp, by simp, other⟩
  rw [absent] at found
  cases found

/-- A bracket behind the root hides nothing from the search for a compound. -/
theorem splitCompound_bracketed {root rest : Text} (name : NameLike root) :
    splitCompound? (root ++ '-' :: '[' :: rest) = none ↔ Uncompounded root := by
  constructor
  · exact uncompounded_of_whole name
  · intro uncompounded
    cases found : splitCompound? (root ++ '-' :: '[' :: rest) with
    | none => rfl
    | some cut =>
      obtain ⟨compound, inner⟩ := cut
      obtain ⟨member, whole, some_left, other⟩ := splitCompound_eq_some.mp found
      have absent : '[' ∉ compound := by
        have known : ∀ r ∈ compoundRoots, '[' ∉ r := by decide
        exact known compound member
      rcases List.append_eq_append_iff.mp whole with ⟨a, rfl, same⟩ | ⟨a, rfl, same⟩
      · -- The compound root would reach beyond the root into the bracket.
        cases a with
        | nil =>
          cases same
          simp at other
        | cons d a =>
          cases a with
          | nil =>
            cases same
          | cons e a =>
            cases same
            simp at absent
      · cases a with
        | nil =>
          cases same
          simp at other
        | cons d a =>
          cases same
          exact absurd ⟨a, by simp⟩ (uncompounded compound member)

/-- A variant without its modifier, which is given. -/
inductive MainSpelt : Text → Option Argument → Variant → Prop
  | static {root : Text} (shape : isRoot root = true) (whole : '-' ∉ root) :
    MainSpelt root none (.static root)
  | bare {root : Text} {m : Argument} (shape : isRoot root = true) (whole : '-' ∉ root) :
    MainSpelt root (some m) (.functional root none (some m))
  | named {root value : Text} (m : Option Argument) (shape : isRoot root = true)
    (named : isNamedValue value = true) (simple : splitCompound? (root ++ '-' :: value) = none) :
    MainSpelt (root ++ '-' :: value) m (.functional root (some (.named value)) m)
  | arbitrary {root inner v : Text} (m : Option Argument) (shape : isRoot root = true)
    (simple : Uncompounded root) (closed : Closed inner)
    (read : Arbitrary.decodeTrimmed inner = some v) :
    MainSpelt (root ++ '-' :: '[' :: (inner ++ [']'])) m
      (.functional root (some (.arbitrary v)) m)
  | compound {root t : Text} {v : Variant} (m : Option Argument) (known : root ∈ compoundRoots)
    (inner : MainSpelt t none v) : MainSpelt (root ++ '-' :: t) m (.compound root m v)

theorem splitCompound_of_whole {root : Text} (whole : '-' ∉ root) : splitCompound? root = none := by
  cases found : splitCompound? root with
  | none => rfl
  | some cut =>
    obtain ⟨-, rfl, -⟩ := splitCompound_eq_some.mp found
    simp at whole

namespace MainSpelt

/-- A variant begins with a letter, a digit or an at sign. -/
theorem head_ne {t : Text} {m : Option Argument} {v : Variant} (spelt : MainSpelt t m v) :
    t ≠ [] ∧ t.head? ≠ some '[' := by
  cases spelt with
  | static shape _ =>
    obtain ⟨name, some_left, -⟩ := nameLike_of_isRoot shape
    exact ⟨some_left, name.head_ne (by decide)⟩
  | bare shape _ =>
    obtain ⟨name, some_left, -⟩ := nameLike_of_isRoot shape
    exact ⟨some_left, name.head_ne (by decide)⟩
  | named _ shape => exact (nameLike_of_isRoot shape).1.leads (nameLike_of_isRoot shape).2.1 _
  | arbitrary _ shape => exact (nameLike_of_isRoot shape).1.leads (nameLike_of_isRoot shape).2.1 _
  | compound _ known =>
    exact (nameLike_of_compoundRoot known).1.leads (nameLike_of_compoundRoot known).2.1 _

theorem solid {t : Text} {m : Option Argument} {v : Variant} (spelt : MainSpelt t m v) {sep : Char}
    (outside : isNameChar sep = false) : Solid sep t := by
  have dash : Solid sep ['-'] :=
    .neutral (by decide) (ne_of_isNameChar (by decide) outside)
  induction spelt with
  | static shape _ => exact (nameLike_of_isRoot shape).1.solid outside
  | bare shape _ => exact (nameLike_of_isRoot shape).1.solid outside
  | named _ shape named _ =>
    exact ((nameLike_of_isRoot shape).1.solid outside).append
      (dash.append ((nameLike_of_isNamedValue named).1.solid outside))
  | arbitrary _ shape _ closed _ =>
    exact ((nameLike_of_isRoot shape).1.solid outside).append (dash.append (.bracketed closed))
  | compound _ known _ ih =>
    exact ((nameLike_of_compoundRoot known).1.solid outside).append (dash.append ih)

/-- The reader finds what the grammar spells. -/
theorem complete {t : Text} {m : Option Argument} {v : Variant} (spelt : MainSpelt t m v) :
    ofMain? t m = some v := by
  induction spelt with
  | @static root shape whole =>
    have name := (nameLike_of_isRoot shape).1
    rw [ofMain?, splitCompound_of_whole whole]
    simp [name.getLast_ne, isNameChar, splitLast_eq_none.mpr whole, shape]
  | @bare root m shape whole =>
    have name := (nameLike_of_isRoot shape).1
    rw [ofMain?, splitCompound_of_whole whole]
    simp [name.getLast_ne, isNameChar, splitLast_eq_none.mpr whole, shape]
  | @named root value m shape named simple =>
    obtain ⟨name, some_left, whole⟩ := nameLike_of_isNamedValue named
    have last : (root ++ '-' :: value).getLast? ≠ some ']' :=
      ((nameLike_of_isRoot shape).1.append (.cons (by decide) name)).getLast_ne (by decide)
    rw [ofMain?, simple]
    dsimp only
    rw [if_neg last, splitLast_eq_some.mpr ⟨rfl, whole⟩]
    simp [shape, named]
  | @arbitrary root inner v m shape simple closed read =>
    have name := (nameLike_of_isRoot shape).1
    obtain ⟨last, found, stripped⟩ := split_rooted name closed
    rw [ofMain?, (splitCompound_bracketed name).mpr simple]
    dsimp only
    rw [if_pos last, found]
    simp [stripped, shape, read]
  | @compound root t v m known inner ih =>
    rw [ofMain?, splitCompound_eq_some.mpr ⟨known, rfl, inner.head_ne.1, inner.head_ne.2⟩]
    simp [ih]

/-- What the reader finds in a balanced text is spelt there. -/
theorem read {t : Text} {m : Option Argument} {v : Variant} (holds : balanced t = true)
    (read : ofMain? t m = some v) : MainSpelt t m v := by
  fun_induction ofMain? t m generalizing v with
  | case1 t m root inner found ih =>
    obtain ⟨v, inside, rfl⟩ := Option.map_eq_some_iff.mp read
    obtain ⟨known, rfl, -⟩ := splitCompound_eq_some.mp found
    have lead := (nameLike_of_compoundRoot known).1
    have dashed := lead.closed.append (closed_neutral (c := '-') (by decide))
    have below : balanced inner = true := by
      rwa [← List.singleton_append, ← List.append_assoc, dashed.balanced_append] at holds
    exact .compound m known (ih below inside)
  | case2 t m simple last =>
    obtain ⟨⟨before, inner⟩, found, cut⟩ := Option.bind_eq_some_iff.mp read
    obtain ⟨root, stripped, value⟩ := Option.bind_eq_some_iff.mp cut
    obtain rfl := stripEnd_eq_some.mp stripped
    obtain ⟨rfl, -, inside⟩ := closed_of_splitClosing holds found
    split at value
    · rename_i shape
      obtain ⟨w, decoded, rfl⟩ := Option.map_eq_some_iff.mp value
      have uncompounded := (splitCompound_bracketed (nameLike_of_isRoot shape).1).mp
        (by simpa using simple)
      simpa using MainSpelt.arbitrary m shape uncompounded inside decoded
    · cases value
  | case3 t m simple _ root value cut shape =>
    cases read
    obtain ⟨rfl, -⟩ := splitLast_eq_some.mp cut
    exact .named m shape.1 shape.2 simple
  | case4 => cases read
  | case5 => cases read
  | case6 t m _ _ cut shape known =>
    cases read
    obtain ⟨m, rfl⟩ := Option.isSome_iff_exists.mp known
    exact .bare (by simpa using shape) (splitLast_eq_none.mp cut)
  | case7 t m _ _ cut shape unknown =>
    cases read
    obtain rfl : m = none := by simpa using unknown
    exact .static (by simpa using shape) (splitLast_eq_none.mp cut)

end MainSpelt

/-- A variant with its modifier, or a selector between brackets. -/
inductive Spelt : Text → Variant → Prop
  | main {t rest : Text} {m : Option Argument} {v : Variant} (main : MainSpelt t m v)
    (modifier : ModifierSpelt rest m) : Spelt (t ++ rest) v
  | selector {inner w : Text} (closed : Closed inner)
    (read : Arbitrary.decodeTrimmed inner = some w) :
    Spelt ('[' :: (inner ++ [']'])) (.arbitrary (anchorSelector w))

namespace Spelt

theorem solid {t : Text} {v : Variant} (spelt : Spelt t v) : Solid ':' t := by
  cases spelt with
  | main main modifier => exact (main.solid (by decide)).append modifier.solid
  | selector closed _ => exact .bracketed closed

theorem complete {t : Text} {v : Variant} (spelt : Spelt t v) : parse? t = some v := by
  cases spelt with
  | @main t rest m _ main modifier =>
    obtain ⟨some_left, bracket⟩ := main.head_ne
    have head : (t ++ rest).head? ≠ some '[' := by
      rwa [List.head?_append_of_ne_nil _ some_left]
    rw [parse?, if_neg (by simp [some_left]), if_neg head, modifier.split (main.solid (by decide))]
    exact main.complete
  | selector closed read =>
    have bracketed := (bracketed_eq_some (closed_bracketed closed).balanced).mpr ⟨rfl, closed⟩
    simp [parse?, bracketed, read]

theorem read {t : Text} {v : Variant} (holds : balanced t = true) (read : parse? t = some v) :
    Spelt t v := by
  unfold parse? at read
  split at read
  · cases read
  · split at read
    · obtain ⟨inner, bracketed, rest⟩ := Option.bind_eq_some_iff.mp read
      obtain ⟨w, decoded, same⟩ := Option.bind_eq_some_iff.mp rest
      cases same
      obtain ⟨rfl, closed⟩ := (bracketed_eq_some holds).mp bracketed
      exact .selector closed decoded
    · obtain ⟨⟨main, m⟩, found, rest⟩ := Option.bind_eq_some_iff.mp read
      obtain ⟨modifier, rfl, spelt, below⟩ := splitModifier_eq_some holds found
      exact .main (.read below rest) spelt

end Spelt

end Variant
end AtomicCss
