import AtomicCss.Migration.BareValue
import AtomicCss.Proofs.Variant.Printing

/-! Promoted variants. A promoted key consists of letters, digits and dashes, so it
never disturbs the text around it; it is read back, with the last dash as the
end of the root, unless that dash ends the key. -/
namespace AtomicCss.Migration
open Text

/-- The roots whose values may become keys. -/
def keyRoots : List Text := ["data", "aria", "supports"]

/-- What is known of a text that becomes a key. -/
structure Key (root value key : Text) : Prop where
  root : root ∈ keyRoots
  some_left : key ≠ []
  shape : ∀ c ∈ key, c.isAlphanum = true ∨ c = '-'
  plain : '\\' ∉ value

theorem mem_unquote {c : Char} {t : Text} (other : c ≠ '"') (member : c ∈ t) : c ∈ unquote t := by
  have drop {t : Text} (member : c ∈ t) : c ∈ t.dropWhile (· == '"') := by
    have whole := List.takeWhile_append_dropWhile (p := (· == '"')) (l := t)
    rw [← whole] at member
    rcases List.mem_append.mp member with quote | kept
    · exact absurd (by simpa using List.mem_takeWhile_imp quote) other
    · exact kept
  simpa [unquote] using drop (List.mem_reverse.mpr (drop member))

theorem key_of_trueKey {value key : Text} (found : trueKey? value = some key) :
    isAttributeKey key = true ∧ '\\' ∉ value := by
  unfold trueKey? at found
  split at found
  · rename_i key' expected cut
    split at found
    · rename_i shape
      cases found
      refine ⟨shape.1, fun member => ?_⟩
      obtain ⟨rfl, -⟩ := splitFirst_eq_some.mp cut
      simp only [isAttributeKey, Bool.and_eq_true, List.all_eq_true] at shape
      rcases List.mem_append.mp member with inside | behind
      · exact absurd (shape.1.2 _ inside) (by decide)
      · have inside := mem_unquote (by decide) ((List.mem_cons.mp behind).resolve_left (by decide))
        rw [shape.2] at inside
        simp at inside
    · cases found
  · cases found

theorem key_of_bareVariantValue {root value key : Text}
    (found : bareVariantValue? root value = some key) : Key root value key := by
  have attr {key : Text} (shape : isAttributeKey key = true) :
      key ≠ [] ∧ ∀ c ∈ key, c.isAlphanum = true ∨ c = '-' := by
    simpa [isAttributeKey] using shape
  have plain {key : Text} (shape : ∀ c ∈ key, c.isAlphanum = true ∨ c = '-') : '\\' ∉ key :=
    fun member => absurd (shape _ member) (by decide)
  unfold bareVariantValue? at found
  split at found
  · rename_i data
    split at found
    · rename_i shape
      cases found
      exact ⟨by simp [keyRoots, data], (attr shape).1, (attr shape).2, plain (attr shape).2⟩
    · cases found
  · split at found
    · rename_i aria
      obtain ⟨shape, clean⟩ := key_of_trueKey found
      exact ⟨by simp [keyRoots, aria], (attr shape).1, (attr shape).2, clean⟩
    · split at found
      · rename_i supports
        split at found
        · rename_i feature
          cases found
          have shape : value ≠ [] ∧ ∀ c ∈ value, c.isAlphanum = true ∨ c = '-' := by
            cases value with
            | nil => cases feature
            | cons c rest =>
              simp only [isFeatureName, Bool.and_eq_true, Bool.or_eq_true, beq_iff_eq,
                List.all_eq_true] at feature
              refine ⟨by simp, fun d member => ?_⟩
              rcases List.mem_cons.mp member with rfl | member
              · rcases feature.1 with lower | dash
                · exact .inl (isAlphanum_of_lower lower)
                · exact .inr dash
              · rcases feature.2 d member with (lower | digit) | dash
                · exact .inl (isAlphanum_of_lower lower)
                · exact .inl (by simp [Char.isAlphanum, digit])
                · exact .inr dash
          exact ⟨by simp [keyRoots, supports], shape.1, shape.2, plain shape.2⟩
        · cases found
      · cases found

namespace Key

variable {root value key : Text}

theorem nameLike (known : Key root value key) : NameLike key := by
  intro c member
  rcases known.shape c member with alnum | rfl
  · simp [Text.isNameChar, alnum]
  · rfl

theorem root_shape (known : Key root value key) :
    Variant.isRoot root = true ∧ '-' ∉ root ∧ root ∉ compoundRoots := by
  have all : ∀ r ∈ keyRoots, Variant.isRoot r = true ∧ '-' ∉ r ∧ r ∉ compoundRoots := by decide
  exact all root known.root

/-- A key does not make its root the root of a compound. -/
theorem simple (known : Key root value key) : Variant.splitCompound? (root ++ '-' :: key) = none := by
  obtain ⟨-, whole, other⟩ := known.root_shape
  cases found : Variant.splitCompound? (root ++ '-' :: key) with
  | none => rfl
  | some cut =>
    obtain ⟨compound, inner⟩ := cut
    obtain ⟨member, same, -⟩ := Variant.splitCompound_eq_some.mp found
    obtain ⟨rfl, -⟩ := first_unique same whole (Variant.nameLike_of_compoundRoot member).2.2
    exact absurd member other

theorem isNamedValue_alphanum {v : Text} (alnum : ∀ c ∈ v, c.isAlphanum = true) :
    isNamedValue v = true ↔ v ≠ [] := by
  simp only [isNamedValue, Bool.and_eq_true, Bool.not_eq_true', List.isEmpty_eq_false_iff,
    List.all_eq_true, and_iff_left_iff_imp]
  intro _ c member
  simp [alnum c member]

/-- The last dash of the class ends the root, unless the key ends in a dash. -/
theorem cut (known : Key root value key) :
    ∃ r v, root ++ '-' :: key = r ++ '-' :: v ∧ '-' ∉ v ∧ Variant.isRoot r = true ∧
      (isNamedValue v = true ↔ key.getLast? ≠ some '-') := by
  cases found : splitLast '-' ('-' :: key) with
  | none => exact absurd (splitLast_eq_none.mp found) (by simp)
  | some cut =>
    obtain ⟨a, v⟩ := cut
    obtain ⟨same, dashless⟩ := splitLast_sound found
    have chars (c : Char) (member : c ∈ a ++ '-' :: v) : c.isAlphanum = true ∨ c = '-' := by
      rw [← same] at member
      exact (List.mem_cons.mp member).elim .inr (known.shape c)
    have alnum (c : Char) (member : c ∈ v) : c.isAlphanum = true :=
      (chars c (by simp [member])).resolve_right fun dash => dashless (dash ▸ member)
    have last : key.getLast? = some (v.getLast?.getD '-') := by
      have both := congrArg List.getLast? same
      obtain ⟨d, key', rfl⟩ := List.exists_cons_of_ne_nil known.some_left
      simpa [List.getLast?_append, List.getLast?_cons] using both
    refine ⟨root ++ a, v, by rw [same, List.append_assoc], dashless, ?_, ?_⟩
    · obtain ⟨shape, -⟩ := known.root_shape
      refine (Variant.isRoot_append (Variant.nameLike_of_isRoot shape).2.1).mpr ⟨shape, fun c member => ?_⟩
      rcases chars c (by simp [member]) with alnum | rfl
      · simp [alnum]
      · rfl
    · rw [isNamedValue_alphanum alnum, last]
      rcases List.eq_nil_or_concat v with rfl | ⟨front, d, rfl⟩
      · simp
      · have other : d ≠ '-' := by
          rintro rfl
          simp at dashless
        simp [other]

end Key

/-- The variant would be promoted to a key that ends in a dash. -/
def dashedKey : Variant → Bool
  | .compound _ _ inner => dashedKey inner
  | .functional root (some (.arbitrary t)) none =>
    (bareVariantValue? root t).any fun key => key.getLast? == some '-'
  | _ => false

/-- A named value as it is read: the last dash ends the root. -/
def recut : Variant → Variant
  | .compound root m inner => .compound root m (recut inner)
  | .functional root (some (.named t)) m =>
    match splitLast '-' (root ++ '-' :: t) with
    | some (r, v) => .functional r (some (.named v)) m
    | none => .functional root (some (.named t)) m
  | v => v

theorem promoteVariant_arbitrary (root v : Text) (m : Option Argument) :
    (promoteVariant (.functional root (some (.arbitrary v)) m) =
        .functional root (some (.arbitrary v)) m ∧
      dashedKey (.functional root (some (.arbitrary v)) m) = false) ∨
    ∃ key, m = none ∧ bareVariantValue? root v = some key ∧
      promoteVariant (.functional root (some (.arbitrary v)) m) =
        .functional root (some (.named key)) none := by
  cases m with
  | some m => exact .inl ⟨rfl, rfl⟩
  | none =>
    cases found : bareVariantValue? root v with
    | none => exact .inl (by simp [promoteVariant, dashedKey, found])
    | some key => exact .inr ⟨key, rfl, rfl, by simp [promoteVariant, found]⟩

theorem reprint_promote {v : Variant} (same : v.reprint = v) :
    (promoteVariant v).reprint = promoteVariant v := by
  fun_induction promoteVariant v with
  | case1 root m inner ih =>
    simp only [Variant.reprint, Variant.compound.injEq, true_and] at same ⊢
    exact ⟨same.1, ih same.2⟩
  | case2 root t =>
    cases bareVariantValue? root t with
    | none => exact same
    | some key => rfl
  | case3 => exact same

namespace Promoted
open Variant

variable {t : Text} {m : Option Argument} {v : Variant}

theorem print_eq (spelt : MainSpelt t m v) :
    (promoteVariant v).print = (promoteVariant v).printMain ++ Argument.printModifier m := by
  induction spelt with
  | static => simp [promoteVariant, print, printMain, Argument.printModifier]
  | bare => simp [promoteVariant, print, printMain, printValue]
  | named => simp [promoteVariant, print, printMain, printValue]
  | @arbitrary root inner v m =>
    rcases promoteVariant_arbitrary root v m with ⟨same, -⟩ | ⟨key, rfl, -, same⟩ <;> rw [same] <;>
      simp [print, printMain, printValue]
  | compound m known inner ih => simp [promoteVariant, print, printMain, ih, Argument.printModifier]

/-- Promotion takes away a closed text at most. -/
theorem printable_promote (printable : Printable v) :
    (promoteVariant v).Printable ∧ loose (promoteVariant v).texts = loose v.texts := by
  induction printable with
  | static name => exact ⟨.static name, rfl⟩
  | @functional root t value m name named read modifier =>
    have kept := Printable.functional name named read modifier
    rcases value with _ | (w | w)
    · exact ⟨kept, rfl⟩
    · exact ⟨kept, rfl⟩
    · rcases promoteVariant_arbitrary root w m with ⟨same, -⟩ | ⟨key, rfl, found, same⟩
      · rw [same]
        exact ⟨kept, rfl⟩
      · have known := key_of_bareVariantValue found
        have nothing : loose [w] = 0 := loose_eq_zero.mpr fun u member => by
          obtain rfl := List.mem_singleton.mp member
          exact (closed_iff_not_dangling (read u rfl).balanced).mpr (not_dangling_of_plain known.plain)
        rw [same]
        refine ⟨.functional name (fun v same => ?_) (by simp) modifier, ?_⟩
        · cases same
          exact known.nameLike
        · simpa [texts, Argument.texts] using nothing.symm
  | compound name modifier _ ih => exact ⟨.compound name modifier ih.1, by simp [promoteVariant, texts, ih.2]⟩

/-- Nothing in a promoted variant is cut when its texts are closed. -/
theorem solid_main (spelt : MainSpelt t m v) (closed : ∀ w ∈ v.texts, Closed w) {sep : Char}
    (outside : Text.isNameChar sep = false) : Solid sep (promoteVariant v).printMain := by
  have dash : Solid sep ['-'] := .neutral (by decide) (ne_of_isNameChar (by decide) outside)
  induction spelt with
  | static shape => exact (nameLike_of_isRoot shape).1.solid outside
  | bare shape =>
    simpa [promoteVariant, printMain, printValue] using (nameLike_of_isRoot shape).1.solid outside
  | named m shape named =>
    exact ((nameLike_of_isRoot shape).1.solid outside).append
      (dash.append ((nameLike_of_isNamedValue named).1.solid outside))
  | @arbitrary root inner v m shape simple _ read =>
    have root_solid := (nameLike_of_isRoot shape).1.solid outside
    rcases promoteVariant_arbitrary root v m with ⟨same, -⟩ | ⟨key, rfl, found, same⟩
    · have written := Arbitrary.closed_print.mpr (closed v (by simp [texts, Argument.texts]))
      rw [same]
      exact root_solid.append (dash.append (.bracketed written))
    · have known := key_of_bareVariantValue found
      rw [same]
      exact root_solid.append (dash.append (known.nameLike.solid outside))
  | compound m known inner ih =>
    exact ((nameLike_of_compoundRoot known).1.solid outside).append
      (dash.append (ih fun w member => closed w (by simp [texts, member])))

/-- A promoted variant is read back, unless its key ends in a dash. -/
theorem reads_main (spelt : MainSpelt t m v)
    {rest : Text} (modifier : ModifierSpelt rest m) (closed : ∀ w ∈ v.texts, Closed w)
    (dashless : dashedKey v = false) :
    MainSpelt (promoteVariant v).printMain (m.map Argument.reprint)
      (recut (promoteVariant v).reprint) := by
  induction spelt generalizing rest with
  | static shape whole => exact .static shape whole
  | bare shape whole =>
    simpa [promoteVariant, printMain, printValue, Variant.reprint, recut] using
      MainSpelt.bare shape whole
  | @named root value m shape named simple =>
    have cut : splitLast '-' (root ++ '-' :: value) = some (root, value) :=
      splitLast_eq_some.mpr ⟨rfl, (nameLike_of_isNamedValue named).2.2⟩
    simpa [promoteVariant, printMain, printValue, Variant.reprint, Argument.reprint, recut, cut]
      using MainSpelt.named (m.map Argument.reprint) shape named simple
  | @arbitrary root inner v m shape simple inside read =>
    have unpromoted := (MainSpelt.arbitrary m shape simple inside read).reprint modifier closed
    rcases promoteVariant_arbitrary root v m with ⟨same, -⟩ | ⟨key, rfl, found, same⟩
    · rw [same]
      exact unpromoted
    · have known := key_of_bareVariantValue found
      obtain ⟨r, w, whole, last, root_shape, named⟩ := known.cut
      have cut : splitLast '-' (root ++ '-' :: key) = some (r, w) := splitLast_eq_some.mpr ⟨whole, last⟩
      have value : isNamedValue w = true := named.mpr (by simpa [dashedKey, found] using dashless)
      have simple' := known.simple
      rw [whole] at simple'
      have spelt := MainSpelt.named none root_shape value simple'
      rw [same]
      simpa [printMain, printValue, Variant.reprint, Argument.reprint, recut, cut, ← whole] using spelt
  | compound m known inner ih =>
    exact .compound _ known (ih .none (fun w member => closed w (by simp [texts, member])) dashless)

theorem unread_main (spelt : MainSpelt t m v) (dashed : dashedKey v = true) (m' : Option Argument) :
    ofMain? (promoteVariant v).printMain m' = none ∧
      (promoteVariant v).printMain ≠ [] ∧ (promoteVariant v).printMain.head? ≠ some '[' := by
  induction spelt generalizing m' with
  | static => cases dashed
  | bare => cases dashed
  | named => cases dashed
  | @arbitrary root inner v m shape simple inside read =>
    rcases promoteVariant_arbitrary root v m with ⟨-, undashed⟩ | ⟨key, rfl, found, same⟩
    · rw [dashed] at undashed
      cases undashed
    · have known := key_of_bareVariantValue found
      obtain ⟨r, w, whole, last, -, named⟩ := known.cut
      have cut : splitLast '-' (root ++ '-' :: key) = some (r, w) := splitLast_eq_some.mpr ⟨whole, last⟩
      have unnamed : isNamedValue w = false := by
        rw [← Bool.not_eq_true, named]
        simpa [dashedKey, found] using dashed
      have bracket : (root ++ '-' :: key).getLast? ≠ some ']' :=
        ((nameLike_of_isRoot shape).1.append (.cons (by decide) known.nameLike)).getLast_ne
          (by decide)
      rw [same]
      refine ⟨?_, (nameLike_of_isRoot shape).1.leads (nameLike_of_isRoot shape).2.1 _⟩
      simp only [printMain, printValue]
      rw [ofMain?, known.simple]
      dsimp only
      rw [if_neg bracket, cut]
      simp [unnamed]
  | compound m known inner ih =>
    obtain ⟨unread, some_left, bracket⟩ := ih dashed none
    refine ⟨?_, (nameLike_of_compoundRoot known).1.leads (nameLike_of_compoundRoot known).2.1 _⟩
    rw [promoteVariant, printMain, ofMain?,
      splitCompound_eq_some.mpr ⟨known, rfl, some_left, bracket⟩]
    simp [unread]

theorem leaves_print (spelt : Spelt t v) (named : ¬ IsSelector v) :
    Leaves (loose v.texts) (promoteVariant v).print := by
  obtain ⟨printable, same⟩ := printable_promote (spelt.printable named)
  exact same ▸ printable.leaves_print

theorem solid_print (spelt : Spelt t v) (named : ¬ IsSelector v) (closed : ∀ w ∈ v.texts, Closed w) :
    Solid ':' (promoteVariant v).print := by
  obtain ⟨main, rest, m, spelt, modifier⟩ := spelt.parts named
  have behind := modifier.reprint fun w member => closed w (spelt.texts_modifier w member)
  rw [print_eq spelt]
  exact (solid_main spelt closed (by decide)).append behind.solid

/-- A promoted variant is read back exactly when its key does not end in a dash. -/
theorem parse_print (spelt : Spelt t v) (named : ¬ IsSelector v) (closed : ∀ w ∈ v.texts, Closed w) :
    Variant.parse? (promoteVariant v).print =
      if dashedKey v then none else some (recut (promoteVariant v).reprint) := by
  obtain ⟨main, rest, m, spelt, modifier⟩ := spelt.parts named
  have behind := modifier.reprint fun w member => closed w (spelt.texts_modifier w member)
  rw [print_eq spelt]
  split
  · rename_i dashed
    obtain ⟨-, some_left, bracket⟩ := unread_main spelt dashed none
    have head : ((promoteVariant v).printMain ++ Argument.printModifier m).head? ≠ some '[' := by
      rwa [List.head?_append_of_ne_nil _ some_left]
    rw [parse?, if_neg (by simp [some_left]), if_neg head,
      behind.split (solid_main spelt closed (by decide))]
    exact (unread_main spelt dashed _).1
  · rename_i dashless
    exact (Spelt.main (reads_main spelt modifier closed (by simpa using dashless))
      behind).complete

end Promoted
end AtomicCss.Migration
