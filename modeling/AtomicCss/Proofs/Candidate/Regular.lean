import AtomicCss.Proofs.Candidate.Named
import AtomicCss.Proofs.Variant.Selector

/-! What holds of every class that is read. Its names are spelled with their own characters, and
its texts between brackets are neither empty nor blank at an end, although they are decoded and
trimmed after the shape of the class was found. A root has a value or a modifier or stands alone,
and what a compound variant holds is neither a selector nor has a modifier, however deep it is.
Printing, promotion and resolution rely on this without asking for it. -/
namespace AtomicCss
open Text

/-- One character of the given kind, and then letters, digits and the characters of `others`. -/
def Text.Spelled (first : Char → Prop) (others t : Text) : Prop :=
  ∃ c rest, t = c :: rest ∧ first c ∧ ∀ d ∈ rest, d.isAlphanum = true ∨ d ∈ others

/-- Letters, digits and these make up a named value. -/
def valueChars : Text := ['.', '%', '_']

/-- A named modifier may hold dashes as well. -/
def modifierChars : Text := ['.', '%', '_', '-']

namespace Argument

/-- A name over letters, digits and `others`, or a trimmed text, or nothing. -/
def Regular (others : Text) : Option Argument → Prop
  | none => True
  | some (.named t) => t ≠ [] ∧ ∀ c ∈ t, c.isAlphanum = true ∨ c ∈ others
  | some (.arbitrary t) => Trimmed t

theorem regular_value {t : Text} (shape : isNamedValue t = true) :
    Regular valueChars (some (named t)) := by
  simp only [isNamedValue, Bool.and_eq_true, Bool.not_eq_true', List.isEmpty_eq_false_iff,
    List.all_eq_true, Bool.or_eq_true, beq_iff_eq] at shape
  refine ⟨shape.1, fun c member => ?_⟩
  simpa [valueChars, or_assoc] using shape.2 c member

theorem regular_modifier {t : Text} (shape : isNamedModifier t = true) :
    Regular modifierChars (some (named t)) := by
  simp only [isNamedModifier, Bool.and_eq_true, Bool.not_eq_true', List.isEmpty_eq_false_iff,
    List.all_eq_true, Bool.or_eq_true, beq_iff_eq] at shape
  refine ⟨shape.1, fun c member => ?_⟩
  simpa [modifierChars, or_assoc] using shape.2 c member

end Argument

theorem ModifierSpelt.regular {t : Text} {m : Option Argument} (spelt : ModifierSpelt t m) :
    Argument.Regular modifierChars m := by
  cases spelt with
  | none => trivial
  | named shape => exact Argument.regular_modifier shape
  | arbitrary _ read => exact Arbitrary.trimmed_of_decodeTrimmed read

namespace Variant

def Root : Text → Prop := Spelled (fun c => c.isAlphanum = true ∨ c = '@') ['-', '_']

theorem root_of_isRoot {t : Text} (root : isRoot t = true) : Root t := by
  cases t with
  | nil => cases root
  | cons c rest =>
    simp only [isRoot, Bool.and_eq_true, Bool.or_eq_true, beq_iff_eq, List.all_eq_true] at root
    exact ⟨c, rest, rfl, root.1, fun d member => by simpa [or_assoc] using root.2 d member⟩

/-- A variant as it is read. A root without a value holds no dash, which would have made the rest
of it a value. -/
inductive Regular : Variant → Prop
  | static {root : Text} (shape : Root root) (whole : '-' ∉ root) : Regular (.static root)
  | functional {root : Text} {value m : Option Argument} (shape : Root root)
    (bare : value = none → '-' ∉ root ∧ m ≠ none) (valued : Argument.Regular valueChars value)
    (modifier : Argument.Regular modifierChars m) : Regular (.functional root value m)
  | arbitrary {selector : Text} (trimmed : Trimmed selector) : Regular (.arbitrary selector)
  | compound {root : Text} {m : Option Argument} {inner : Variant} (known : root ∈ compoundRoots)
    (modifier : Argument.Regular modifierChars m) (inside : Regular inner)
    (named : ¬ IsSelector inner) (alone : inner.modifier = none) : Regular (.compound root m inner)

theorem MainSpelt.regular {t : Text} {m : Option Argument} {v : Variant} (spelt : MainSpelt t m v)
    (modifier : Argument.Regular modifierChars m) :
    v.Regular ∧ ¬ IsSelector v ∧ v.modifier = m := by
  induction spelt with
  | static shape whole => exact ⟨.static (root_of_isRoot shape) whole, nofun, rfl⟩
  | bare shape whole =>
    exact ⟨.functional (root_of_isRoot shape) (by simp [whole]) trivial modifier, nofun, rfl⟩
  | named m shape named =>
    exact ⟨.functional (root_of_isRoot shape) (by simp) (Argument.regular_value named) modifier, nofun, rfl⟩
  | arbitrary m shape _ _ read =>
    exact ⟨.functional (root_of_isRoot shape) (by simp) (Arbitrary.trimmed_of_decodeTrimmed read) modifier,
      nofun, rfl⟩
  | compound m known _ ih =>
    obtain ⟨inside, named, alone⟩ := ih trivial
    exact ⟨.compound known modifier inside named alone, nofun, rfl⟩

/-- A selector that is wrapped, or put behind the element, gets no blank at an end. -/
theorem trimmed_anchorSelector {t : Text} (trimmed : Trimmed t) : Trimmed (anchorSelector t) := by
  rcases anchorSelector_cases t with (same | same) | same
  · rwa [same]
  · rw [same]
    simpa using trimmed.around (a := "& ".toList) (b := []) (by simp [isBlank]) (by simp [EndsVisibly])
  · rw [same]
    exact trimmed.around (by simp [isBlank]) (by simp [EndsVisibly, isBlank])

theorem Spelt.regular {t : Text} {v : Variant} (spelt : Spelt t v) : v.Regular := by
  cases spelt with
  | main main modifier => exact (main.regular modifier.regular).1
  | selector _ read => exact .arbitrary (trimmed_anchorSelector (Arbitrary.trimmed_of_decodeTrimmed read))

end Variant

namespace UtilityTerm

def Root : Text → Prop := Spelled (fun c => c.isLower = true) ['.', '_', '-']

def PropertyName : Text → Prop := Spelled (fun c => c = '-' ∨ c.isLower = true) ['-', '_']

theorem root_of_isRoot {t : Text} (root : isRoot t = true) : Root t := by
  cases t with
  | nil => cases root
  | cons c rest =>
    simp only [isRoot, Bool.and_eq_true, Bool.or_eq_true, beq_iff_eq, List.all_eq_true] at root
    refine ⟨c, rest, rfl, root.1, fun d member => ?_⟩
    rcases root.2 d member with ((alnum | dash) | low) | dot
    · exact .inl alnum
    all_goals simp_all

theorem propertyName_of_isPropertyName {t : Text} (name : isPropertyName t = true) : PropertyName t := by
  cases t with
  | nil => cases name
  | cons c rest =>
    simp only [isPropertyName, Bool.and_eq_true, Bool.or_eq_true, beq_iff_eq, List.all_eq_true] at name
    exact ⟨c, rest, rfl, name.1, fun d member => by simpa [or_assoc] using name.2 d member⟩

/-- A name, or a trimmed text that may have a hint, or nothing. -/
def RegularValue : Option UtilityValue → Prop
  | none => True
  | some (.named t) => Argument.Regular valueChars (some (.named t))
  | some (.arbitrary t hint) => Trimmed t ∧ ∀ h, hint = some h → Arbitrary.IsHint h

theorem regularValue_of_read {t : Text} {v : UtilityValue} (read : arbitraryValue? t = some v) :
    RegularValue (some v) := by
  obtain ⟨inner, hint, rest, -, split, some_left, rfl⟩ := arbitraryValue_eq_some read
  refine ⟨.of_trim some_left, fun h known => ?_⟩
  subst known
  exact (Arbitrary.splitHint_some.mp split).2

/-- A utility as it is read. A root alone has no modifier, so one without a value has one. -/
inductive Regular : UtilityTerm → Prop
  | static {root : Text} (negative : Bool) (shape : Root root) (whole : '-' ∉ root) :
    Regular (.static root negative)
  | functional {root : Text} {value : Option UtilityValue} {m : Option Argument} (negative : Bool)
    (shape : Root root) (bare : value = none → '-' ∉ root ∧ m ≠ none)
    (valued : RegularValue value) (modifier : Argument.Regular modifierChars m) :
    Regular (.functional root value m negative)
  | property {name v : Text} {m : Option Argument} (shape : PropertyName name) (trimmed : Trimmed v)
    (modifier : Argument.Regular modifierChars m) : Regular (.property name v m)

theorem Spelt.regular {t : Text} {u : UtilityTerm} (spelt : Spelt t u) : u.Regular := by
  cases spelt with
  | main negative main behind =>
    have modifier := behind.regular
    cases main with
    | static shape whole => exact .static negative (root_of_isRoot shape) whole
    | bare shape whole =>
      exact .functional negative (root_of_isRoot shape) (by simp [whole]) trivial modifier
    | named _ shape named =>
      exact .functional negative (root_of_isRoot shape) (by simp) (Argument.regular_value named) modifier
    | arbitrary _ shape _ read =>
      exact .functional negative (root_of_isRoot shape) (by simp) (regularValue_of_read read) modifier
  | property shape _ read behind =>
    exact .property (propertyName_of_isPropertyName shape) (Arbitrary.trimmed_of_decodeTrimmed read)
      behind.regular

end UtilityTerm

namespace Candidate

structure Regular (c : Candidate) : Prop where
  variants : ∀ v ∈ c.variants, v.Regular
  base : c.base.Regular

/-- Every class that is read is regular. -/
theorem parsed_regular {lead : Option Text} {t : Text} {c : Candidate} (read : parse? lead t = some c) :
    c.Regular := by
  have spelt := Spelt.read read
  refine ⟨fun v member => ?_, ?_⟩
  · obtain ⟨_, piece⟩ := spelt.variant v member
    exact piece.regular
  · obtain ⟨⟨_, _, _, -, -, based, -⟩, -⟩ := spelt
    exact based.regular

theorem nested_compound_regular :
    let c : Candidate := ⟨.functional "bg" (some (.arbitrary "var(--a)" (some "color")))
        (some (.arbitrary "0.5")) true,
      [.compound "group" (some (.named "menu-1"))
        (.compound "has" none (.functional "data" (some (.arbitrary "x y")) none)),
        .arbitrary "& >img"], true⟩
    parse? (some "tw") "tw:group-has-data-[_x_y_]/menu-1:[>img]:-bg-[_color:_var(--a)]/[_0.5]!" = some c ∧
      c.Regular := by
  intro c
  have read : parse? (some "tw")
      "tw:group-has-data-[_x_y_]/menu-1:[>img]:-bg-[_color:_var(--a)]/[_0.5]!" = some c := by
    decide +kernel
  exact ⟨read, parsed_regular read⟩

end Candidate
end AtomicCss
