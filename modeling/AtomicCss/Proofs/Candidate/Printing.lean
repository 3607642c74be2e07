import AtomicCss.Proofs.Candidate.Spelling
import AtomicCss.Proofs.Variant.Printing

/-! The canonical text of a candidate. It is read back as the candidate with each
arbitrary text as it is read where it was written, provided that no text ends in
a backslash. -/
namespace AtomicCss
open Text

namespace Arbitrary

/-- What is written for a value without a hint, before it is escaped. -/
def unhinted (v : Text) : Text :=
  if (splitHint (Value.compactText v)).1.isSome then trim v else Value.compactText v

theorem printUnhinted_eq (v : Text) : printUnhinted v = encode (unhinted v) := by
  unfold printUnhinted unhinted
  dsimp only
  split <;> rfl

/-- What is read where a value without a hint was printed. -/
def reprintUnhinted (v : Text) : Text := reread (unhinted v)

theorem thinned_unhinted {v : Text} (trimmed : trim v = v) : Value.Thinned .plain v (unhinted v) := by
  unfold unhinted
  split
  · rw [trimmed]
    exact .refl _ _
  · exact Value.thinned_compactText v

theorem hintless_unhinted {v : Text} (trimmed : trim v = v) (hintless : (splitHint v).1 = none) :
    (splitHint (unhinted v)).1 = none := by
  unfold unhinted
  split
  · rwa [trimmed]
  · rename_i unhinted
    simpa using unhinted

/-- A visible character in front is read as a visible one. -/
theorem reread_head {c : Char} {t : Text} (visible : isBlank c = false) :
    ∃ o rest, spaceFrom .start (respell .start (c :: t)) = o :: rest ∧ isBlank o = false := by
  have first (o : Char) (rest : Text) (seen : isBlank o = false) :
      ∃ o' rest', spaceFrom .start (o :: rest) = o' :: rest' ∧ isBlank o' = false :=
    ⟨o, spaceFrom (MathState.start.next o rest) rest,
      by rw [spaceFrom, emit_outside rfl]; rfl, seen⟩
  rw [respell.eq_def]
  dsimp only
  split
  · split
    · exact first _ _ rfl
    · split
      · exact first _ _ rfl
      · split <;> exact first _ _ rfl
  · split
    · exact first _ _ rfl
    · split
      · rename_i space
        rw [space] at visible
        cases visible
      · exact first _ _ visible

theorem hintless_reread {c : Char} {t : Text} (visible : isBlank c = false)
    (hintless : (splitHint (c :: t)).1 = none) : (splitHint (reread (c :: t))).1 = none := by
  rw [hintless_iff] at hintless ⊢
  intro hint rest shape same
  obtain ⟨before, behind, whole, blank, -⟩ := trim_parts (spaceOperators (respell .start (c :: t)))
  obtain ⟨o, tail, head, seen⟩ := reread_head (t := t) visible
  have nothing : before = [] := by
    cases before with
    | nil => rfl
    | cons d before =>
      rw [spaceOperators, head] at whole
      obtain ⟨rfl, -⟩ := List.cons.inj whole
      simp [blank o (by simp)] at seen
  rw [← reread_eq, same, nothing] at whole
  obtain ⟨y, written⟩ := hint_of_spaceFrom (s := .start) rfl rfl (h := hint) (x := rest ++ behind)
    (by obtain ⟨_, _, _, _, all⟩ := shape; exact all)
    (by simpa [spaceOperators] using whole)
  exact hintless hint y shape written

end Arbitrary

namespace UtilityTerm

theorem arbitraryValue_eq_some {t : Text} {v : UtilityValue} (read : arbitraryValue? t = some v) :
    ∃ inner hint rest, Arbitrary.decodeTrimmed t = some inner ∧
      Arbitrary.splitHint inner = (hint, rest) ∧ trim rest ≠ [] ∧
      v = .arbitrary (trim rest) hint := by
  obtain ⟨inner, decoded, read⟩ := Option.bind_eq_some_iff.mp read
  dsimp only at read
  split at read
  · cases read
  · rename_i some_left
    cases read
    exact ⟨inner, (Arbitrary.splitHint inner).1, (Arbitrary.splitHint inner).2, decoded, rfl,
      by simpa using some_left, rfl⟩

/-- What is known of a value between brackets. -/
structure ValueReading (v : Text) (hint : Option Text) : Prop where
  reading : Arbitrary.Reading v
  hinted : ∀ h, hint = some h → Arbitrary.IsHint h
  unhinted : hint = none → (Arbitrary.splitHint v).1 = none

theorem hint_closed {h : Text} (shape : Arbitrary.IsHint h) : Closed (h ++ [':']) := by
  have name : NameLike h := by
    obtain ⟨-, -, -, -, all⟩ := shape
    intro c member
    rcases all c member with lower | rfl
    · simp [isNameChar, isAlphanum_of_lower lower]
    · rfl
  exact name.closed.append (closed_neutral (by decide))

theorem reading_of_arbitraryValue {t : Text} {v : UtilityValue} (holds : balanced t = true)
    (read : arbitraryValue? t = some v) : ∃ w hint, v = .arbitrary w hint ∧ ValueReading w hint := by
  obtain ⟨inner, hint, rest, decoded, split, some_left, rfl⟩ := arbitraryValue_eq_some read
  have reading := Arbitrary.reading_of_decodeTrimmed holds decoded
  refine ⟨trim rest, hint, rfl, ?_⟩
  cases hint with
  | none =>
    obtain rfl := Arbitrary.splitHint_none split
    rw [reading.trimmed] at some_left ⊢
    exact ⟨reading, by simp, fun _ => by rw [split]⟩
  | some h =>
    obtain ⟨rfl, shape⟩ := Arbitrary.splitHint_some.mp split
    have whole := reading.balanced
    rw [← List.singleton_append, ← List.append_assoc, (hint_closed shape).balanced_append] at whole
    exact ⟨⟨balanced_trim whole, trim_trim rest, some_left⟩, fun _ same => Option.some.inj same ▸ shape,
      nofun⟩

namespace ValueReading

variable {v : Text} {hint : Option Text}

/-- The contents of the brackets that are written for a value. -/
def written (v : Text) : Option Text → Text
  | none => Arbitrary.printUnhinted v
  | some hint => hint ++ ':' :: Arbitrary.print v

/-- The value as it is read where it was printed. -/
def reprint (v : Text) : Option Text → Text
  | none => Arbitrary.reprintUnhinted v
  | some _ => Arbitrary.reprint v

theorem written_track (value : ValueReading v hint) :
    track (.plain, []) (written v hint) = track (.plain, []) v := by
  cases hint with
  | none => exact Arbitrary.printUnhinted_track value.reading.trimmed []
  | some h =>
    have lead := hint_closed (value.hinted h rfl)
    rw [written, ← List.singleton_append, ← List.append_assoc, track_append_of lead]
    exact Arbitrary.print_track v []

/-- A value is read where it was printed. -/
theorem read_written (value : ValueReading v hint) :
    arbitraryValue? (written v hint) = some (.arbitrary (reprint v hint) hint) := by
  have visible := value.reading.ink_ne_nil
  cases hint with
  | none =>
    obtain ⟨c, t, whole⟩ := List.exists_cons_of_ne_nil value.reading.some_left
    have trimmed := value.reading.trimmed
    have first : isBlank c = false := trim_head (trimmed.trans whole)
    have thinned := Arbitrary.thinned_unhinted trimmed
    obtain ⟨rest, same⟩ : ∃ rest, Arbitrary.unhinted v = c :: rest := by
      rw [whole] at thinned ⊢
      exact thinned.head_eq first
    have hintless := Arbitrary.hintless_unhinted trimmed (value.unhinted rfl)
    have decoded : Arbitrary.decodeTrimmed (Arbitrary.printUnhinted v) =
        some (Arbitrary.reprintUnhinted v) := by
      rw [Arbitrary.printUnhinted_eq]
      exact Arbitrary.decodeTrimmed_encode (by rwa [thinned.ink_eq])
    have kept : (Arbitrary.splitHint (Arbitrary.reprintUnhinted v)).1 = none := by
      rw [Arbitrary.reprintUnhinted, same]
      exact Arbitrary.hintless_reread first (same ▸ hintless)
    have split := Arbitrary.splitHint_of_none kept
    obtain ⟨-, some_left⟩ := Arbitrary.decodeTrimmed_eq decoded
    have again : trim (Arbitrary.reprintUnhinted v) = Arbitrary.reprintUnhinted v := trim_trim _
    simp [arbitraryValue?, written, reprint, decoded, split, again, some_left]
  | some h =>
    have shape := value.hinted h rfl
    obtain ⟨c, t, rfl, lower, all⟩ := shape
    have first (d : Char) (head : ((c :: t) ++ [':']).head? = some d) : isBlank d = false := by
      cases head
      exact visible_of_isNameChar (by simp [isNameChar, isAlphanum_of_lower lower])
    have read := Arbitrary.decodeTrimmed_print value.reading
    obtain ⟨value_read, some_left⟩ := Arbitrary.decodeTrimmed_eq read
    have decoded : Arbitrary.decodeTrimmed (written v (some (c :: t))) =
        some (c :: t ++ ':' :: trimEnd (Arbitrary.decode (Arbitrary.print v))) := by
      have inner := trim_between (b := Arbitrary.decode (Arbitrary.print v)) first
        (show isBlank ':' = false from rfl)
      rw [Arbitrary.decodeTrimmed, written, Arbitrary.decode_hint all, inner]
      simp
    have split := (Arbitrary.splitHint_some (t := _ ++ ':' :: trimEnd (Arbitrary.decode (Arbitrary.print v)))).mpr
      ⟨rfl, ⟨c, t, rfl, lower, all⟩⟩
    rw [arbitraryValue?, decoded, Option.bind_eq_bind, Option.bind_some, split]
    simp [trim_trimEnd, value_read, some_left, reprint]

end ValueReading
/-- The texts between brackets. -/
def texts : UtilityTerm → List Text
  | .functional _ (some (.arbitrary v _)) m _ => v :: Argument.texts m
  | .functional _ _ m _ => Argument.texts m
  | .property _ v m => v :: Argument.texts m
  | .static .. => []

/-- The utility as it is read where it was printed. -/
def reprint : UtilityTerm → UtilityTerm
  | .functional root (some (.arbitrary v hint)) m negative =>
    .functional root (some (.arbitrary (ValueReading.reprint v hint) hint)) (m.map Argument.reprint)
      negative
  | .functional root value m negative => .functional root value (m.map Argument.reprint) negative
  | .property name v m => .property name (Arbitrary.reprint v) (m.map Argument.reprint)
  | .static root negative => .static root negative

/-- The value of a utility as it is written, with its dash. -/
def printValue : Option UtilityValue → Text
  | none => []
  | some (.named t) => '-' :: t
  | some (.arbitrary t hint) => '-' :: '[' :: (ValueReading.written t hint ++ [']'])

theorem print_functional (root : Text) (value : Option UtilityValue) (m : Option Argument)
    (negative : Bool) : print (.functional root value m negative) =
      (if negative then ['-'] else []) ++ (root ++ printValue value) ++ Argument.printModifier m := by
  rcases value with _ | (t | ⟨t, _ | hint⟩) <;> cases negative <;>
    simp [print, UtilityTerm.negative, printValue, ValueReading.written]

/-- A utility as the reader gives it. -/
inductive Sound : UtilityTerm → Prop
  | static {root : Text} (negative : Bool) (shape : isRoot root = true) (whole : '-' ∉ root) :
    Sound (.static root negative)
  | bare {root t : Text} {m : Argument} (negative : Bool) (shape : isRoot root = true)
    (whole : '-' ∉ root) (modifier : ModifierSpelt t (some m)) :
    Sound (.functional root none (some m) negative)
  | named {root value t : Text} {m : Option Argument} (negative : Bool) (shape : isRoot root = true)
    (named : isNamedValue value = true) (modifier : ModifierSpelt t m) :
    Sound (.functional root (some (.named value)) m negative)
  | arbitrary {root v t : Text} {hint : Option Text} {m : Option Argument} (negative : Bool)
    (shape : isRoot root = true) (value : ValueReading v hint) (modifier : ModifierSpelt t m) :
    Sound (.functional root (some (.arbitrary v hint)) m negative)
  | property {name v t : Text} {m : Option Argument} (shape : isPropertyName name = true)
    (value : Arbitrary.Reading v) (modifier : ModifierSpelt t m) : Sound (.property name v m)

theorem Spelt.sound {t : Text} {u : UtilityTerm} (spelt : Spelt t u) : Sound u := by
  cases spelt with
  | main negative main modifier =>
    cases main with
    | static shape whole => exact .static negative shape whole
    | bare shape whole => exact .bare negative shape whole modifier
    | named _ shape named => exact .named negative shape named modifier
    | arbitrary _ shape closed read =>
      obtain ⟨w, hint, rfl, value⟩ := reading_of_arbitraryValue closed.balanced read
      exact .arbitrary negative shape value modifier
  | property shape closed read modifier =>
    exact .property shape (Arbitrary.reading_of_decodeTrimmed closed.balanced read) modifier

namespace Sound

variable {u : UtilityTerm}

theorem reading (sound : Sound u) : ∀ v ∈ u.texts, Arbitrary.Reading v := by
  cases sound with
  | static => simp [texts]
  | bare _ _ _ modifier => exact modifier.reading
  | named _ _ _ modifier => exact modifier.reading
  | arbitrary _ _ value modifier => exact List.forall_mem_cons.mpr ⟨value.reading, modifier.reading⟩
  | property _ value modifier => exact List.forall_mem_cons.mpr ⟨value, modifier.reading⟩

/-- A utility whose texts are closed is read where it was printed. -/
theorem spelt_print (sound : Sound u) (closed : ∀ v ∈ u.texts, Closed v) :
    Spelt u.print u.reprint := by
  cases sound with
  | @static root negative shape whole =>
    have spelt := Spelt.main negative (MainSpelt.static shape whole) .none
    cases negative <;> simpa [print, UtilityTerm.negative, reprint] using spelt
  | bare negative shape whole modifier =>
    rw [print_functional]
    simpa [printValue, reprint] using
      Spelt.main negative (MainSpelt.bare shape whole) (modifier.reprint closed)
  | named negative shape named modifier =>
    rw [print_functional]
    exact .main negative (.named _ shape named) (modifier.reprint closed)
  | @arbitrary root v _ hint m negative shape value modifier =>
    have inside : Closed (ValueReading.written v hint) := by
      rw [Closed, value.written_track]
      exact closed v (by simp [texts])
    have behind := modifier.reprint fun w member => closed w (by simp [texts, member])
    rw [print_functional]
    exact .main negative (.arbitrary _ shape inside value.read_written) behind
  | @property name v _ m shape value modifier =>
    have inside := Arbitrary.closed_print.mpr (closed v (by simp [texts]))
    have behind := modifier.reprint fun w member => closed w (by simp [texts, member])
    simpa [print, UtilityTerm.negative, reprint] using
      Spelt.property shape inside (Arbitrary.decodeTrimmed_print value) behind

/-- Each text that is not closed leaves a bracket open. -/
theorem leaves_print (sound : Sound u) : Leaves (loose u.texts) u.print := by
  have sign (negative : Bool) {n : Nat} {a : Text} (rest : Leaves n a) :
      Leaves n ((if negative then ['-'] else []) ++ a) := by
    cases negative
    · exact rest
    · simpa using (Leaves.ofClosed (closed_neutral (c := '-') (by decide))).append rest
  cases sound with
  | @static root negative shape whole =>
    have main := sign negative (Leaves.ofName (nameLike_of_isRoot shape).1)
    cases negative <;> simpa [print, UtilityTerm.negative, texts] using main
  | bare negative shape whole modifier =>
    have main := sign negative (Leaves.ofName (nameLike_of_isRoot shape).1)
    rw [print_functional]
    simpa [printValue, texts] using main.append modifier.leaves_print
  | named negative shape named modifier =>
    have value := Leaves.ofName (nameLike_of_isNamedValue named).1
    have main := sign negative (value.dashed (nameLike_of_isRoot shape).1)
    rw [print_functional]
    simpa [printValue, texts] using main.append modifier.leaves_print
  | @arbitrary root v _ hint m negative shape value modifier =>
    have bracketed := (Leaves.bracketed value.reading.balanced value.written_track).dashed
      (nameLike_of_isRoot shape).1
    rw [print_functional, show texts (.functional root (some (.arbitrary v hint)) m negative) =
      [v] ++ Argument.texts m from rfl, loose_append]
    exact (sign negative bracketed).append modifier.leaves_print
  | @property name v _ m shape value modifier =>
    have lead := (nameLike_of_isPropertyName shape).closed.append
      (closed_neutral (c := ':') (by decide))
    have bracketed := Leaves.bracketed value.balanced
      ((track_append_of lead _).trans (Arbitrary.print_track v []))
    rw [show texts (.property name v m) = [v] ++ Argument.texts m from rfl, loose_append]
    simpa [print, UtilityTerm.negative] using bracketed.append modifier.leaves_print

end Sound

end UtilityTerm

namespace Candidate

/-- The texts between brackets. -/
def texts (c : Candidate) : List Text := c.variants.flatMap Variant.texts ++ c.base.texts

/-- The mark of importance, which is written at the end. -/
def mark (c : Candidate) : Text := if c.important then ['!'] else []

/-- The candidate without its variants. -/
def alone (c : Candidate) : Candidate := { c with variants := [] }

theorem print_eq (lead : Option Text) (c : Candidate) :
    c.print lead = joinWith [':'] (leadTexts lead ++ c.variants.map Variant.print ++
      [c.base.print ++ c.mark]) := by
  have colon : (":" : Text) = [':'] := by simp
  rcases lead with _ | (_ | ⟨d, p⟩) <;> cases important : c.important <;>
    simp [print, mark, leadTexts, colon, important]

theorem print_alone (c : Candidate) : c.alone.print none = c.base.print ++ c.mark := by
  rw [print_eq]
  cases important : c.important <;>
    simp [alone, mark, leadTexts, joinWith, List.intercalate, important]

theorem marked_mark (c : Candidate) : Marked c.base.print c.important (c.base.print ++ c.mark) := by
  cases important : c.important <;> simp [Marked, mark, important]

theorem leaves_alone {n : Nat} {c : Candidate} (leaves : Leaves n c.base.print) :
    Leaves n (c.alone.print none) := by
  rw [print_alone]
  unfold mark
  split
  · exact leaves.append (.ofClosed (closed_neutral (by decide)))
  · simpa using leaves

end Candidate
end AtomicCss
