import AtomicCss.Proofs.Arbitrary.Inert
import AtomicCss.Proofs.Candidate.RoundTrip

/-! Printing a class that was printed before. If it has no backslash and calls
neither `url` nor a mathematical function, its texts are read as they are written,
and the second canonical text is the first. -/
namespace AtomicCss
open Text Variant

namespace Arbitrary

theorem compactText_compact {k : Text} (compact : Compact k) : Value.compactText k = k := by
  rw [Value.compactText_eq_squeeze compact.balanced, compact.compact]

theorem reprint_inert {v : Text} (reading : Reading v) (inert : Inert v) :
    reprint v = Value.compactText v :=
  reread_inert (inert.compactText reading.balanced) (compact_compactText reading).trimmed

theorem print_reprint {v : Text} (reading : Reading v) (inert : Inert v) : print (reprint v) = print v := by
  rw [reprint_inert reading inert, print, print, compactText_compact (compact_compactText reading)]

/-- What is written without a hint is written again. -/
theorem printUnhinted_reprint {v : Text} (reading : Reading v) (inert : Inert v) :
    printUnhinted (reprintUnhinted v) = printUnhinted v := by
  rw [printUnhinted_eq, printUnhinted_eq, reprintUnhinted]
  by_cases hinted : (splitHint (Value.compactText v)).1.isSome = true
  · have kept : unhinted v = v := by rw [unhinted, if_pos hinted, reading.trimmed]
    rw [kept, reread_inert inert reading.trimmed, kept]
  · have kept : unhinted v = Value.compactText v := if_neg hinted
    have again := reprint_inert reading inert
    rw [reprint] at again
    rw [kept, again, unhinted, compactText_compact (compact_compactText reading), if_neg hinted]

end Arbitrary

theorem Argument.printModifier_reprint {m : Option Argument}
    (reading : ∀ v ∈ texts m, Arbitrary.Reading v) (inert : ∀ v ∈ texts m, Arbitrary.Inert v) :
    printModifier (m.map reprint) = printModifier m := by
  rcases m with _ | (t | v)
  · rfl
  · rfl
  · have same := Arbitrary.print_reprint (reading v (by simp [texts])) (inert v (by simp [texts]))
    simp [printModifier, reprint, same]

theorem ModifierSpelt.inert {t : Text} {m : Option Argument} (spelt : ModifierSpelt t m)
    (inert : Arbitrary.Inert t) : ∀ v ∈ Argument.texts m, Arbitrary.Inert v := by
  cases spelt with
  | none => simp [Argument.texts]
  | named => simp [Argument.texts]
  | @arbitrary inner v _ read =>
    have inside : Arbitrary.Inert inner := inert.part ⟨['/', '['], [']'], by simp⟩
    simpa [Argument.texts] using Arbitrary.inert_decodeTrimmed inside read

namespace Variant

theorem MainSpelt.inert {t : Text} {m : Option Argument} {v : Variant} (spelt : MainSpelt t m v)
    (inert : Arbitrary.Inert t) (modifier : ∀ w ∈ Argument.texts m, Arbitrary.Inert w) :
    ∀ w ∈ v.texts, Arbitrary.Inert w := by
  induction spelt with
  | static => simp [texts]
  | bare => simpa [texts, Argument.texts] using modifier
  | named => simpa [texts, Argument.texts] using modifier
  | @arbitrary root inner v m _ _ _ read =>
    have inside : Arbitrary.Inert inner := inert.part ⟨root ++ ['-', '['], [']'], by simp⟩
    exact List.forall_mem_append.mpr
      ⟨by simpa [Argument.texts] using Arbitrary.inert_decodeTrimmed inside read, modifier⟩
  | @compound root t v m _ _ ih =>
    have inside : Arbitrary.Inert t := inert.part ⟨root ++ ['-'], [], by simp⟩
    exact List.forall_mem_append.mpr ⟨modifier, ih inside (by simp [Argument.texts])⟩

theorem Spelt.inert {t : Text} {v : Variant} (spelt : Spelt t v) (named : ¬ IsSelector v)
    (inert : Arbitrary.Inert t) : ∀ w ∈ v.texts, Arbitrary.Inert w := by
  cases spelt with
  | main main modifier =>
    exact main.inert (inert.part (List.prefix_append _ _).isInfix)
      (modifier.inert (inert.part (List.suffix_append _ _).isInfix))
  | selector => exact absurd ⟨_, rfl⟩ named

theorem print_reprint {v : Variant} (printable : v.Printable)
    (inert : ∀ w ∈ v.texts, Arbitrary.Inert w) : v.reprint.print = v.print := by
  have readings := printable.reading
  induction printable with
  | static => rfl
  | @functional root t value m =>
    obtain ⟨value_read, modifier_read⟩ := List.forall_mem_append.mp readings
    obtain ⟨value_inert, modifier_inert⟩ := List.forall_mem_append.mp inert
    have modifier := Argument.printModifier_reprint modifier_read modifier_inert
    rcases value with _ | (w | w)
    · simp [reprint, print, modifier]
    · simp [reprint, print, modifier, Argument.reprint]
    · have same := Arbitrary.print_reprint (value_read w (by simp [Argument.texts]))
        (value_inert w (by simp [Argument.texts]))
      simp [reprint, print, modifier, Argument.reprint, same]
  | compound _ _ _ ih =>
    obtain ⟨modifier_read, inner_read⟩ := List.forall_mem_append.mp readings
    obtain ⟨modifier_inert, inner_inert⟩ := List.forall_mem_append.mp inert
    have modifier := Argument.printModifier_reprint modifier_read modifier_inert
    simp [reprint, print, modifier, ih inner_inert inner_read]

end Variant

namespace UtilityTerm

theorem inert_arbitraryValue {t w : Text} {hint : Option Text} (inert : Arbitrary.Inert t)
    (read : arbitraryValue? t = some (.arbitrary w hint)) : Arbitrary.Inert w := by
  obtain ⟨inner, hint', rest, decoded, split, -, same⟩ := arbitraryValue_eq_some read
  obtain ⟨rfl, rfl⟩ := UtilityValue.arbitrary.inj same
  have inside := Arbitrary.inert_decodeTrimmed inert decoded
  have part : rest <:+: inner := by
    cases hint with
    | none =>
      obtain rfl := Arbitrary.splitHint_none split
      exact List.infix_rfl
    | some h =>
      obtain ⟨rfl, -⟩ := Arbitrary.splitHint_some.mp split
      exact ⟨h ++ [':'], [], by simp⟩
  exact inside.part ((Arbitrary.trim_part rest).trans part)

theorem Spelt.inert {t : Text} {u : UtilityTerm} (spelt : Spelt t u) (inert : Arbitrary.Inert t) :
    ∀ v ∈ u.texts, Arbitrary.Inert v := by
  cases spelt with
  | @main negative t rest m _ main modifier =>
    have behind := modifier.inert (inert.part (List.suffix_append _ _).isInfix)
    cases main with
    | static => simp [texts]
    | bare => simpa [texts] using behind
    | named => simpa [texts] using behind
    | @arbitrary root inner v _ _ closed read =>
      have inside : Arbitrary.Inert inner :=
        inert.part ⟨(if negative then ['-'] else []) ++ root ++ ['-', '['], ']' :: rest, by simp⟩
      obtain ⟨w, hint, rfl, -⟩ := reading_of_arbitraryValue closed.balanced read
      exact List.forall_mem_cons.mpr ⟨inert_arbitraryValue inside read, behind⟩
  | @property name inner v rest m _ _ read modifier =>
    have inside : Arbitrary.Inert inner :=
      inert.part ⟨'[' :: (name ++ [':']), ']' :: rest, by simp⟩
    exact List.forall_mem_cons.mpr ⟨Arbitrary.inert_decodeTrimmed inside read,
      modifier.inert (inert.part (List.suffix_append _ _).isInfix)⟩

theorem ValueReading.written_reprint {v : Text} {hint : Option Text} (value : ValueReading v hint)
    (inert : Arbitrary.Inert v) : written (reprint v hint) hint = written v hint := by
  cases hint with
  | none =>
    simp only [written, reprint]
    exact Arbitrary.printUnhinted_reprint value.reading inert
  | some h => simp only [written, reprint, Arbitrary.print_reprint value.reading inert]

theorem print_reprint {u : UtilityTerm} (sound : u.Sound) (inert : ∀ v ∈ u.texts, Arbitrary.Inert v) :
    u.reprint.print = u.print := by
  cases sound with
  | static => rfl
  | bare _ _ _ modifier =>
    have behind := Argument.printModifier_reprint modifier.reading inert
    rw [Option.map_some] at behind
    simp [reprint, print_functional, behind]
  | named _ _ _ modifier =>
    have behind := Argument.printModifier_reprint modifier.reading inert
    simp [reprint, print_functional, behind]
  | arbitrary _ _ value modifier =>
    obtain ⟨value_inert, modifier_inert⟩ := List.forall_mem_cons.mp inert
    have behind := Argument.printModifier_reprint modifier.reading modifier_inert
    simp [reprint, print_functional, printValue, behind, value.written_reprint value_inert]
  | property _ value modifier =>
    obtain ⟨value_inert, modifier_inert⟩ := List.forall_mem_cons.mp inert
    have behind := Argument.printModifier_reprint modifier.reading modifier_inert
    simp [reprint, print, UtilityTerm.negative, behind, Arbitrary.print_reprint value value_inert]

end UtilityTerm

namespace Candidate

theorem Spelt.inert {lead : Option Text} {t : Text} {c : Candidate} (spelt : Spelt lead t c)
    (named : ∀ v ∈ c.variants, ¬ IsSelector v) (inert : Arbitrary.Inert t) :
    (∀ v ∈ c.variants, ∀ w ∈ v.texts, Arbitrary.Inert w) ∧ ∀ w ∈ c.base.texts, Arbitrary.Inert w := by
  obtain ⟨⟨texts, base, last, rfl, each, based, marked⟩, -⟩ := spelt
  have piece {p : Text} (member : p ∈ leadTexts lead ++ texts ++ [last]) : Arbitrary.Inert p :=
    inert.part (infix_joinWith member [':'])
  constructor
  · intro v member
    obtain ⟨i, bound, rfl⟩ := List.getElem_of_mem member
    exact (each.get (by rwa [each.length_eq]) bound).inert (named _ member) (piece (by simp))
  · have part : base <:+: last := by
      unfold Marked at marked
      split at marked
      · rcases marked with rfl | rfl
        · exact (List.prefix_append _ _).isInfix
        · exact (List.suffix_cons _ _).isInfix
      · exact marked ▸ List.infix_rfl
    exact based.inert ((piece (by simp)).part part)

/-- Canonical text is printed again from what is read there, when neither a backslash
stands in the class nor a call of `url` or of a mathematical function. -/
theorem second_print_same {lead : Option Text} {t : Text} {c : Candidate} (read : parse? lead t = some c)
    (inert : Arbitrary.Inert t) (named : ∀ v ∈ c.variants, ¬ IsSelector v) :
    ∃ c', parse? lead (c.print lead) = some c' ∧ c'.print lead = c.print lead := by
  have spelt := Spelt.read read
  obtain ⟨variants, base⟩ := spelt.inert named inert
  have printable {v : Variant} (member : v ∈ c.variants) : v.Printable := by
    obtain ⟨_, piece⟩ := spelt.variant v member
    exact piece.printable (named v member)
  have closed {w : Text} (reading : Arbitrary.Reading w) (inert : Arbitrary.Inert w) : Closed w :=
    (closed_iff_not_dangling reading.balanced).mpr (not_dangling_of_plain inert.plain)
  refine ⟨c.reprint, parse_print spelt named (List.forall_mem_append.mpr ⟨?_, ?_⟩), ?_⟩
  · intro w member
    obtain ⟨v, inside, member⟩ := List.mem_flatMap.mp member
    exact closed ((printable inside).reading w member) (variants v inside w member)
  · exact fun w member => closed (spelt.sound.reading w member) (base w member)
  · have same : c.variants.map (Variant.print ∘ Variant.reprint) = c.variants.map Variant.print :=
      List.map_congr_left fun v member => Variant.print_reprint (printable member) (variants v member)
    rw [print_eq, print_eq]
    simp only [reprint, List.map_map, same, UtilityTerm.print_reprint spelt.sound base, mark]
    rfl

theorem nested_call_printed_twice :
    let c : Candidate := ⟨.functional "bg" (some (.arbitrary "f( a , g(b) )" (some "color")))
      (some (.named "50")) false, [.static "hover", .functional "data" (some (.arbitrary "x = y")) none], true⟩
    ∃ c', parse? none (c.print none) = some c' ∧ c'.print none = c.print none := by
  intro c
  have read : parse? none "hover:data-[x_=_y]:!bg-[color:f(_a_,_g(b)_)]/50" = some c := by decide +kernel
  exact second_print_same read (by decide +kernel) (by simp [c, IsSelector])

end Candidate

end AtomicCss
