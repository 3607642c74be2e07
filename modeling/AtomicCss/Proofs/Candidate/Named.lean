import AtomicCss.Proofs.Candidate.Brackets

/-! Classes without square brackets. Such a class is one of names alone, and reading
and writing are inverse to each other, except that the mark of importance moves
from the front of the utility to its end. -/
namespace AtomicCss
open Text

/-- A modifier is a name, if there is one. -/
inductive NamedModifier : Option Argument → Prop
  | none : NamedModifier none
  | named {t : Text} (shape : isNamedModifier t = true) : NamedModifier (some (.named t))

namespace NamedModifier

variable {m : Option Argument}

theorem spelt (named : NamedModifier m) : ModifierSpelt (Argument.printModifier m) m := by
  cases named with
  | none => exact .none
  | named shape => exact .named shape

theorem read {t : Text} (spelt : ModifierSpelt t m) (bracketless : '[' ∉ t) :
    NamedModifier m ∧ Argument.printModifier m = t := by
  cases spelt with
  | none => exact ⟨.none, rfl⟩
  | named shape => exact ⟨.named shape, rfl⟩
  | arbitrary => simp at bracketless

theorem bracketless (named : NamedModifier m) : '[' ∉ Argument.printModifier m := by
  cases named with
  | none => simp [Argument.printModifier]
  | named shape =>
    simpa [Argument.printModifier] using (nameLike_of_isNamedModifier shape).1.not_mem (by decide)

end NamedModifier

namespace Variant

/-- The modifier of the outermost variant. -/
def modifier : Variant → Option Argument
  | .static _ => none
  | .functional _ _ m => m
  | .arbitrary _ => none
  | .compound _ m _ => m

/-- A variant of names. A root with a value is neither that of a compound nor begins
with one and a dash, since it would be read as a compound; what a compound holds
has no modifier of its own. -/
inductive WellFormed : Variant → Prop
  | static {root : Text} (shape : isRoot root = true) (whole : '-' ∉ root) : WellFormed (.static root)
  | bare {root m : Text} (shape : isRoot root = true) (whole : '-' ∉ root)
    (named : isNamedModifier m = true) : WellFormed (.functional root none (some (.named m)))
  | valued {root value : Text} {m : Option Argument} (shape : isRoot root = true)
    (other : root ∉ compoundRoots) (simple : Uncompounded root) (named : isNamedValue value = true)
    (modifier : NamedModifier m) : WellFormed (.functional root (some (.named value)) m)
  | compound {root : Text} {m : Option Argument} {inner : Variant} (known : root ∈ compoundRoots)
    (inside : WellFormed inner) (alone : inner.modifier = none) (modifier : NamedModifier m) :
    WellFormed (.compound root m inner)

/-- Behind a root, a name hides no compound. -/
theorem splitCompound_named {root value : Text} (name : NameLike root) (named : isNamedValue value = true) :
    splitCompound? (root ++ '-' :: value) = none ↔ root ∉ compoundRoots ∧ Uncompounded root := by
  obtain ⟨value_name, some_left, -⟩ := nameLike_of_isNamedValue named
  have solid : value.head? ≠ some '[' := value_name.head_ne (by decide)
  constructor
  · intro absent
    refine ⟨fun known => ?_, uncompounded_of_whole name absent⟩
    rw [splitCompound_eq_some.mpr ⟨known, rfl, some_left, solid⟩] at absent
    cases absent
  · rintro ⟨other, simple⟩
    cases found : splitCompound? (root ++ '-' :: value) with
    | none => rfl
    | some cut =>
      obtain ⟨compound, inner⟩ := cut
      obtain ⟨known, whole, -⟩ := splitCompound_eq_some.mp found
      have undashed := (nameLike_of_compoundRoot known).2.2
      rcases List.append_eq_append_iff.mp whole with ⟨a, rfl, same⟩ | ⟨a, rfl, same⟩
      · cases a with
        | nil => exact absurd (by simpa using known) other
        | cons d a =>
          cases same
          simp at undashed
      · cases a with
        | nil => exact absurd (by simpa using known) other
        | cons d a =>
          cases same
          exact absurd ⟨a, by simp⟩ (simple compound known)

namespace WellFormed

variable {v : Variant}

theorem namedModifier (formed : WellFormed v) : NamedModifier v.modifier := by
  cases formed with
  | static => exact .none
  | bare _ _ named => exact .named named
  | valued _ _ _ _ modifier => exact modifier
  | compound _ _ _ modifier => exact modifier

theorem mainSpelt (formed : WellFormed v) : MainSpelt v.printMain v.modifier v := by
  induction formed with
  | static shape whole => exact .static shape whole
  | bare shape whole => simpa [printMain, printValue, modifier] using MainSpelt.bare shape whole
  | valued shape other simple named =>
    have absent := (splitCompound_named (nameLike_of_isRoot shape).1 named).mpr ⟨other, simple⟩
    exact .named _ shape named absent
  | compound known _ alone _ ih => exact .compound _ known (alone ▸ ih)

theorem spelt (formed : WellFormed v) : Spelt v.print v := by
  rw [formed.mainSpelt.print_eq]
  exact .main formed.mainSpelt formed.namedModifier.spelt

theorem bracketless (formed : WellFormed v) : '[' ∉ v.print := by
  rw [formed.mainSpelt.print_eq, List.mem_append, not_or]
  refine ⟨?_, formed.namedModifier.bracketless⟩
  have outside : isNameChar '[' = false := by decide
  induction formed with
  | static shape => exact (nameLike_of_isRoot shape).1.not_mem outside
  | bare shape => simpa [printMain, printValue] using (nameLike_of_isRoot shape).1.not_mem outside
  | valued shape _ _ named =>
    have root := (nameLike_of_isRoot shape).1.not_mem outside
    have value := (nameLike_of_isNamedValue named).1.not_mem outside
    simp [printMain, printValue, root, value]
  | compound known _ _ _ ih =>
    have root := (nameLike_of_compoundRoot known).1.not_mem outside
    simp [printMain, root, ih]

theorem readMain {t : Text} {m : Option Argument} (spelt : MainSpelt t m v) (bracketless : '[' ∉ t)
    (named : NamedModifier m) : WellFormed v ∧ v.modifier = m ∧ v.printMain = t := by
  induction spelt with
  | static shape whole => exact ⟨.static shape whole, rfl, rfl⟩
  | bare shape whole =>
    cases named with
    | named simple => exact ⟨.bare shape whole simple, rfl, by simp [printMain, printValue]⟩
  | named m shape value simple =>
    obtain ⟨other, simple⟩ := (splitCompound_named (nameLike_of_isRoot shape).1 value).mp simple
    exact ⟨.valued shape other simple value named, rfl, rfl⟩
  | arbitrary => simp at bracketless
  | compound m known inner ih =>
    obtain ⟨inside, alone, same⟩ := ih (by simp_all) .none
    exact ⟨.compound known inside alone named, rfl, by rw [printMain, same]⟩

theorem read {t : Text} (spelt : Spelt t v) (bracketless : '[' ∉ t) : WellFormed v ∧ v.print = t := by
  cases spelt with
  | main main modifier =>
    obtain ⟨front, behind⟩ := not_or.mp (mt List.mem_append.mpr bracketless)
    obtain ⟨named, written⟩ := NamedModifier.read modifier behind
    obtain ⟨formed, -, same⟩ := readMain main front named
    exact ⟨formed, by rw [main.print_eq, same, written]⟩
  | selector => simp at bracketless

end WellFormed

end Variant

namespace UtilityTerm

/-- A utility of names: one alone, with a modifier, or with a value. -/
inductive WellFormed : UtilityTerm → Prop
  | static {root : Text} (negative : Bool) (shape : isRoot root = true) (whole : '-' ∉ root) :
    WellFormed (.static root negative)
  | bare {root m : Text} (negative : Bool) (shape : isRoot root = true) (whole : '-' ∉ root)
    (named : isNamedModifier m = true) : WellFormed (.functional root none (some (.named m)) negative)
  | valued {root value : Text} {m : Option Argument} (negative : Bool) (shape : isRoot root = true)
    (named : isNamedValue value = true) (modifier : NamedModifier m) :
    WellFormed (.functional root (some (.named value)) m negative)

namespace WellFormed

variable {u : UtilityTerm}

theorem spelt (formed : WellFormed u) : Spelt u.print u := by
  cases formed with
  | static negative shape whole =>
    have spelt := Spelt.main negative (MainSpelt.static shape whole) .none
    cases negative <;> simpa [print, UtilityTerm.negative] using spelt
  | bare negative shape whole named =>
    rw [print_functional]
    simpa [printValue] using
      Spelt.main negative (MainSpelt.bare shape whole) (NamedModifier.named named).spelt
  | valued negative shape named modifier =>
    rw [print_functional]
    exact .main negative (.named _ shape named) modifier.spelt

theorem bracketless (formed : WellFormed u) : '[' ∉ u.print := by
  have outside : isNameChar '[' = false := by decide
  cases formed with
  | static negative shape =>
    have name := (nameLike_of_isRoot shape).1.not_mem outside
    cases negative <;> simpa [print, UtilityTerm.negative] using name
  | bare negative shape _ named =>
    have name := (nameLike_of_isRoot shape).1.not_mem outside
    have behind := (NamedModifier.named named).bracketless
    cases negative <;> simp [print_functional, printValue, name, behind]
  | valued negative shape named modifier =>
    have name := (nameLike_of_isRoot shape).1.not_mem outside
    have value := (nameLike_of_isNamedValue named).1.not_mem outside
    cases negative <;> simp [print_functional, printValue, name, value, modifier.bracketless]

theorem read {t : Text} (spelt : Spelt t u) (bracketless : '[' ∉ t) : WellFormed u ∧ u.print = t := by
  cases spelt with
  | main negative main modifier =>
    obtain ⟨front, behind⟩ := not_or.mp (mt List.mem_append.mpr bracketless)
    obtain ⟨named, written⟩ := NamedModifier.read modifier behind
    cases main with
    | static shape whole =>
      cases modifier
      refine ⟨.static negative shape whole, ?_⟩
      cases negative <;> simp [print, UtilityTerm.negative]
    | bare shape whole =>
      cases named with
      | named simple =>
        exact ⟨.bare negative shape whole simple, by simp [print_functional, printValue, written]⟩
    | named _ shape value =>
      exact ⟨.valued negative shape value named, by simp [print_functional, printValue, written]⟩
    | arbitrary => simp at front
  | property => simp at bracketless

end WellFormed

end UtilityTerm

namespace Candidate

/-- A class of names. -/
structure WellFormed (c : Candidate) : Prop where
  variants : ∀ v ∈ c.variants, v.WellFormed
  base : c.base.WellFormed

/-- The canonical text with the mark of importance in front of the utility. -/
def printMarkedFirst (lead : Option Text) (c : Candidate) : Text :=
  joinWith [':'] (leadTexts lead ++ c.variants.map Variant.print ++ ['!' :: c.base.print])

theorem bracketless_joinWith {ts : List Text} :
    '[' ∉ joinWith [':'] ts ↔ ∀ t ∈ ts, '[' ∉ t := by
  induction ts with
  | nil => simp [joinWith, List.intercalate]
  | cons a ts ih =>
    cases ts with
    | nil => simp [joinWith, List.intercalate]
    | cons b ts =>
      rw [joinWith_cons_cons, List.forall_mem_cons, ← ih]
      simp

theorem WellFormed.readVariants {texts : List Text} {variants : List Variant}
    (each : List.Forall₂ Variant.Spelt texts variants) (bracketless : ∀ t ∈ texts, '[' ∉ t) :
    (∀ v ∈ variants, v.WellFormed) ∧ variants.map Variant.print = texts := by
  induction each with
  | nil => simp
  | cons head _ ih =>
    obtain ⟨first, others⟩ := List.forall_mem_cons.mp bracketless
    obtain ⟨formed, same⟩ := Variant.WellFormed.read head first
    obtain ⟨later, rest⟩ := ih others
    exact ⟨List.forall_mem_cons.mpr ⟨formed, later⟩, by rw [List.map_cons, same, rest]⟩

theorem nameLike_leadTexts {lead : Option Text}
    (letters : ∀ p, lead = some p → ∀ d ∈ p, d.isLower = true) : ∀ p ∈ leadTexts lead, NameLike p := by
  intro p member
  unfold leadTexts at member
  split at member
  · cases member
  · cases member
  · obtain rfl := List.mem_singleton.mp member
    exact fun d inside => by simp [isNameChar, isAlphanum_of_lower (letters p rfl d inside)]

/-- What is read is written again as it was, but for the place of the mark. -/
theorem wellFormed_of_read {lead : Option Text} {t : Text} {c : Candidate} (bracketless : '[' ∉ t)
    (read : parse? lead t = some c) :
    c.WellFormed ∧ (t = c.print lead ∨ c.important = true ∧ t = c.printMarkedFirst lead) := by
  obtain ⟨⟨texts, base, last, rfl, each, based, marked⟩, -⟩ := parse_eq_some.mp read
  rw [bracketless_joinWith] at bracketless
  obtain ⟨variants, printed⟩ :=
    WellFormed.readVariants each fun t member => bracketless t (by simp [member])
  have final : '[' ∉ last := bracketless last (by simp)
  rw [← printed]
  unfold Marked at marked
  split at marked
  · rename_i important
    have inside : '[' ∉ base := by rcases marked with rfl | rfl <;> simpa using final
    obtain ⟨formed, rfl⟩ := UtilityTerm.WellFormed.read based inside
    refine ⟨⟨variants, formed⟩, marked.imp (fun same => ?_) fun same => ⟨important, by rw [same]; rfl⟩⟩
    rw [print_eq, mark, if_pos important, same]
  · rename_i unmarked
    subst marked
    obtain ⟨formed, rfl⟩ := UtilityTerm.WellFormed.read based final
    refine ⟨⟨variants, formed⟩, .inl ?_⟩
    rw [print_eq, mark, if_neg unmarked, List.append_nil]

/-- What is written without brackets is read as it was. -/
theorem WellFormed.parse {lead : Option Text} {t : Text} {c : Candidate} (formed : c.WellFormed)
    (name : ∀ p ∈ leadTexts lead, NameLike p)
    (whole : t = c.print lead ∨ c.important = true ∧ t = c.printMarkedFirst lead) :
    '[' ∉ t ∧ parse? lead t = some c := by
  obtain ⟨variants, base⟩ := formed
  have each : List.Forall₂ Variant.Spelt (c.variants.map Variant.print) c.variants := by
    rw [List.forall₂_map_left_iff, List.forall₂_same]
    exact fun v member => (variants v member).spelt
  have solid : ∀ p ∈ leadTexts lead, Solid ':' p := fun p member => (name p member).solid (by decide)
  have front : ∀ p ∈ leadTexts lead ++ c.variants.map Variant.print, '[' ∉ p := by
    refine List.forall_mem_append.mpr ⟨fun p member => (name p member).not_mem (by decide), ?_⟩
    exact List.forall_mem_map.mpr fun v member => (variants v member).bracketless
  have bracketless {last : Text} (final : '[' ∉ last) :
      '[' ∉ joinWith [':'] (leadTexts lead ++ c.variants.map Variant.print ++ [last]) :=
    bracketless_joinWith.mpr (List.forall_mem_append.mpr ⟨front, by simpa using final⟩)
  rcases whole with rfl | ⟨important, rfl⟩
  · refine ⟨?_, Spelt.complete ⟨⟨_, _, _, print_eq lead c, each, base.spelt, marked_mark c⟩, solid⟩⟩
    rw [print_eq]
    refine bracketless ?_
    unfold mark
    split <;> simp [base.bracketless]
  · exact ⟨bracketless (by simp [base.bracketless]),
      Spelt.complete ⟨⟨_, _, _, rfl, each, base.spelt, by simp [Marked, important]⟩, solid⟩⟩

/-- A text without square brackets is read exactly as the class of names whose
canonical text it is, if a mark in front of the utility is moved to its end. -/
theorem bracketless_class_iff {lead : Option Text}
    (letters : ∀ p, lead = some p → ∀ d ∈ p, d.isLower = true) {t : Text} {c : Candidate} :
    '[' ∉ t ∧ parse? lead t = some c ↔ c.WellFormed ∧
      (t = c.print lead ∨ c.important = true ∧ t = c.printMarkedFirst lead) := by
  constructor
  · rintro ⟨bracketless, read⟩
    exact wellFormed_of_read bracketless read
  · rintro ⟨formed, whole⟩
    exact formed.parse (nameLike_leadTexts letters) whole

theorem nested_compound_read :
    let c : Candidate := ⟨.functional "bg-red" (some (.named "500")) (some (.named "50")) true,
      [.compound "group" (some (.named "menu")) (.compound "not" none
        (.functional "aria" (some (.named "checked")) none))], true⟩
    '[' ∉ ("tw:group-not-aria-checked/menu:!-bg-red-500/50" : Text) ∧
      parse? (some "tw") "tw:group-not-aria-checked/menu:!-bg-red-500/50" = some c := by
  intro c
  have aria : Variant.WellFormed (.functional "aria" (some (.named "checked")) none) :=
    .valued (by decide) (by decide) (by unfold Variant.Uncompounded; decide) (by decide) .none
  have variant : Variant.WellFormed (.compound "group" (some (.named "menu")) (.compound "not" none
      (.functional "aria" (some (.named "checked")) none))) :=
    .compound (by decide) (.compound (by decide) aria rfl .none) rfl (.named (by decide))
  have formed : c.WellFormed :=
    ⟨by simpa [c] using variant, .valued true (by decide) (by decide) (.named (by decide))⟩
  exact (@bracketless_class_iff (some "tw") (by rintro p ⟨⟩; exact List.all_eq_true.mp (by decide))).mpr
    ⟨formed, .inr ⟨rfl, by decide⟩⟩

end Candidate

end AtomicCss
