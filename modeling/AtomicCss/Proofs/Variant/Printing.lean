import AtomicCss.Proofs.Arbitrary.Hint
import AtomicCss.Proofs.Text.Dangling
import AtomicCss.Proofs.Variant.Spelling

/-! The canonical text of a variant. It is read back as the variant with each
arbitrary text as it is read where it was written, provided that no text ends in
a backslash: that would take the bracket behind it out of play. -/
namespace AtomicCss
open Text

namespace Arbitrary

theorem Reading.ink_ne_nil {v : Text} (reading : Reading v) : ink v ≠ [] :=
  (endsVisibly_of_trimmed reading.trimmed).ink_ne_nil reading.some_left

theorem closed_print {v : Text} : Closed (print v) ↔ Closed v := by
  rw [Closed, Closed, print_track]

/-- What is read where a value was printed. -/
def reprint (v : Text) : Text := reread (Value.compactText v)

theorem decodeTrimmed_print {v : Text} (reading : Reading v) :
    decodeTrimmed (print v) = some (reprint v) := by
  refine decodeTrimmed_encode ?_
  rw [Value.ink_compactText]
  exact reading.ink_ne_nil

theorem closed_reprint {v : Text} (reading : Reading v) (closed : Closed v) : Closed (reprint v) := by
  have thinned := Value.thinned_compactText v
  refine closed_reread ?_ (thinned.endsVisibly (endsVisibly_of_trimmed reading.trimmed))
  rwa [Closed, thinned.track_eq]

end Arbitrary

namespace Argument

/-- The text between brackets, if this is one. -/
def texts : Option Argument → List Text
  | some (.arbitrary t) => [t]
  | _ => []

/-- The argument as it is read where it was printed. -/
def reprint : Argument → Argument
  | .named t => .named t
  | .arbitrary t => .arbitrary (Arbitrary.reprint t)

end Argument

namespace ModifierSpelt

variable {t : Text} {m : Option Argument}

theorem reading (spelt : ModifierSpelt t m) : ∀ v ∈ Argument.texts m, Arbitrary.Reading v := by
  cases spelt with
  | none => simp [Argument.texts]
  | named => simp [Argument.texts]
  | arbitrary closed read =>
    simpa [Argument.texts] using Arbitrary.reading_of_decodeTrimmed closed.balanced read

theorem reprint (spelt : ModifierSpelt t m) (closed : ∀ v ∈ Argument.texts m, Closed v) :
    ModifierSpelt (Argument.printModifier m) (m.map Argument.reprint) := by
  have readings := spelt.reading
  cases spelt with
  | none => exact .none
  | named named => exact .named named
  | @arbitrary inner v _ _ =>
    have written := Arbitrary.closed_print.mpr (closed v (by simp [Argument.texts]))
    have read := Arbitrary.decodeTrimmed_print (readings v (by simp [Argument.texts]))
    simpa [Argument.printModifier, Argument.reprint] using ModifierSpelt.arbitrary written read

/-- The texts that are not closed leave so many brackets open. -/
theorem leaves_print (spelt : ModifierSpelt t m) :
    Leaves (loose (Argument.texts m)) (Argument.printModifier m) := by
  have readings := spelt.reading
  cases spelt with
  | none => rfl
  | named named =>
    exact .ofClosed ((Closed.append (closed_neutral (c := '/') (by decide))
      (nameLike_of_isNamedModifier named).1.closed))
  | @arbitrary inner v =>
    have written := Leaves.bracketed (readings v (by simp [Argument.texts])).balanced
      (Arbitrary.print_track v [])
    simpa [Argument.printModifier, Argument.texts] using
      (Leaves.ofClosed (closed_neutral (c := '/') (by decide))).append written

end ModifierSpelt

namespace Variant

/-- The texts between brackets, the outermost variant first. -/
def texts : Variant → List Text
  | .static _ => []
  | .functional _ value m => Argument.texts value ++ Argument.texts m
  | .arbitrary selector => [shortSelector selector]
  | .compound _ m inner => Argument.texts m ++ inner.texts

/-- The variant as it is read where it was printed. -/
def reprint : Variant → Variant
  | .static root => .static root
  | .functional root value m => .functional root (value.map Argument.reprint) (m.map Argument.reprint)
  | .arbitrary selector => .arbitrary selector
  | .compound root m inner => .compound root (m.map Argument.reprint) inner.reprint

/-- The value of a variant as it is written, with its dash. -/
def printValue : Option Argument → Text
  | none => []
  | some (.named t) => '-' :: t
  | some (.arbitrary t) => '-' :: '[' :: (Arbitrary.print t ++ [']'])

/-- The canonical text without the modifier. -/
def printMain : Variant → Text
  | .static root => root
  | .functional root value _ => root ++ printValue value
  | .arbitrary selector => '[' :: (Arbitrary.print (shortSelector selector) ++ [']'])
  | .compound root _ inner => root ++ '-' :: inner.printMain

/-- A variant that is no selector, with names and texts as they can be written. -/
inductive Printable : Variant → Prop
  | static {root : Text} (name : NameLike root) : Printable (.static root)
  | functional {root t : Text} {value m : Option Argument} (name : NameLike root)
    (named : ∀ v, value = some (.named v) → NameLike v)
    (read : ∀ v, value = some (.arbitrary v) → Arbitrary.Reading v) (modifier : ModifierSpelt t m) :
    Printable (.functional root value m)
  | compound {root t : Text} {m : Option Argument} {inner : Variant} (name : NameLike root)
    (modifier : ModifierSpelt t m) (printable : Printable inner) : Printable (.compound root m inner)

namespace Printable

variable {v : Variant}

theorem reading (printable : Printable v) : ∀ w ∈ v.texts, Arbitrary.Reading w := by
  induction printable with
  | static => simp [texts]
  | @functional root t value m name named read modifier =>
    intro w member
    rcases List.mem_append.mp member with here | behind
    · rcases value with _ | (_ | v) <;> simp [Argument.texts] at here
      exact here ▸ read v rfl
    · exact modifier.reading w behind
  | compound name modifier inner ih =>
    exact fun w member => (List.mem_append.mp member).elim (modifier.reading w) (ih w)

/-- Each text that is not closed leaves a bracket open. -/
theorem leaves_print (printable : Printable v) : Leaves (loose v.texts) v.print := by
  induction printable with
  | static name => simpa [texts, print] using Leaves.ofName name
  | @functional root t value m name named read modifier =>
    have main : Leaves (loose (Argument.texts value)) (root ++ printValue value) := by
      rcases value with _ | (w | w)
      · simpa [printValue, Argument.texts] using Leaves.ofName name
      · exact (Leaves.ofName (named w rfl)).dashed name
      · exact (Leaves.bracketed (read w rfl).balanced (Arbitrary.print_track w [])).dashed name
    have whole := main.append modifier.leaves_print
    rcases value with _ | (w | w) <;> simpa [texts, print, printValue] using whole
  | @compound root t m inner name modifier _ ih =>
    have whole := (ih.dashed name).append modifier.leaves_print
    rw [Nat.add_comm] at whole
    simpa [texts, print] using whole

end Printable

namespace MainSpelt

variable {t : Text} {m : Option Argument} {v : Variant}

theorem print_eq (spelt : MainSpelt t m v) : v.print = v.printMain ++ Argument.printModifier m := by
  induction spelt with
  | static => simp [print, printMain, Argument.printModifier]
  | bare => simp [print, printMain, printValue]
  | named => simp [print, printMain, printValue]
  | arbitrary => simp [print, printMain, printValue]
  | compound m known inner ih => simp [print, printMain, ih, Argument.printModifier]

theorem printable {rest : Text} (spelt : MainSpelt t m v) (modifier : ModifierSpelt rest m) :
    v.Printable := by
  induction spelt generalizing rest with
  | static shape => exact .static (nameLike_of_isRoot shape).1
  | bare shape => exact .functional (nameLike_of_isRoot shape).1 (by simp) (by simp) modifier
  | named m shape named =>
    refine .functional (nameLike_of_isRoot shape).1 (fun v same => ?_) (by simp) modifier
    cases same
    exact (nameLike_of_isNamedValue named).1
  | arbitrary m shape simple closed read =>
    refine .functional (nameLike_of_isRoot shape).1 (by simp) (fun v same => ?_) modifier
    cases same
    exact Arbitrary.reading_of_decodeTrimmed closed.balanced read
  | compound m known inner ih => exact .compound (nameLike_of_compoundRoot known).1 modifier (ih .none)

/-- A variant whose texts are closed is read where it was printed. -/
theorem reprint {rest : Text} (spelt : MainSpelt t m v) (modifier : ModifierSpelt rest m)
    (closed : ∀ w ∈ v.texts, Closed w) :
    MainSpelt v.printMain (m.map Argument.reprint) v.reprint := by
  have readings := (spelt.printable modifier).reading
  clear modifier
  induction spelt with
  | static shape whole => exact .static shape whole
  | bare shape whole =>
    simpa [printMain, printValue, Variant.reprint] using MainSpelt.bare shape whole
  | named m shape named simple => exact .named _ shape named simple
  | @arbitrary root inner v m shape simple _ _ =>
    have written := Arbitrary.closed_print.mpr (closed v (by simp [texts, Argument.texts]))
    have read := Arbitrary.decodeTrimmed_print (readings v (by simp [texts, Argument.texts]))
    exact .arbitrary _ shape simple written read
  | compound m known inner ih =>
    refine .compound _ known (ih (fun w member => closed w ?_) fun w member => readings w ?_) <;>
      simp [texts, member]

theorem texts_modifier (spelt : MainSpelt t m v) : ∀ w ∈ Argument.texts m, w ∈ v.texts := by
  cases spelt <;> simp_all [texts, Argument.texts]

end MainSpelt

/-- A selector between brackets. -/
def IsSelector (v : Variant) : Prop := ∃ selector, v = .arbitrary selector

namespace Spelt

variable {t : Text} {v : Variant}

theorem parts (spelt : Spelt t v) (named : ¬ IsSelector v) :
    ∃ main rest m, MainSpelt main m v ∧ ModifierSpelt rest m := by
  cases spelt with
  | main main modifier => exact ⟨_, _, _, main, modifier⟩
  | selector => exact absurd ⟨_, rfl⟩ named

theorem printable (spelt : Spelt t v) (named : ¬ IsSelector v) : v.Printable := by
  obtain ⟨main, rest, m, spelt, modifier⟩ := spelt.parts named
  exact spelt.printable modifier

theorem reprint (spelt : Spelt t v) (named : ¬ IsSelector v) (closed : ∀ w ∈ v.texts, Closed w) :
    Spelt v.print v.reprint := by
  obtain ⟨main, rest, m, spelt, modifier⟩ := spelt.parts named
  rw [spelt.print_eq]
  exact .main (spelt.reprint modifier closed)
    (modifier.reprint fun w member => closed w (spelt.texts_modifier w member))

end Spelt

end Variant
end AtomicCss
