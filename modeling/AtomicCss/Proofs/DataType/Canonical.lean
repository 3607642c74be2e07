import AtomicCss.Proofs.DataType.Families
import AtomicCss.Proofs.DataType.Positions
import AtomicCss.Proofs.DataType.Ratios

/-! The types of a value and those of its canonical spacing. No type is lost. Some are gained: a sign
is joined with its number, a dash with the words around it, and a calculation without blanks may
be a part of a position. -/
namespace AtomicCss.DataType
open Text Value

/-- No call begins with a hash. -/
theorem callsOneOf_hash (type : DataType) (digits : Text) : callsOneOf (functions type) ('#' :: digits) = false := by
  refine Bool.eq_false_iff.mpr fun calls => ?_
  obtain ⟨name, arguments, known, -, whole⟩ := (callsOneOf_text_iff (hyphenated_functions type)).mp calls
  have good := hyphenated_of_lower (hyphenated_functions type _ known)
  obtain ⟨c, u, rfl, -⟩ := hyphenated_first good
  cases whole
  cases good

theorem isColor_eq (t : Text) : isColor t = (isLiteral color t || callsOneOf colorFunctions t) := by
  unfold isColor
  split
  · rename_i digits
    have none : callsOneOf colorFunctions ('#' :: digits) = false := callsOneOf_hash color digits
    rw [none, Bool.or_false]
    rfl
  · rename_i other
    have keyword : isLiteral color t = colorKeywords.contains (Text.lower t) := by
      unfold isLiteral
      split <;> simp_all
    rw [keyword, callsOneOf]
    cases named : callName? t with
    | none => simp
    | some name =>
      have word : colorKeywords.contains (Text.lower t) = false := by
        refine Bool.eq_false_iff.mpr fun known => ?_
        have single := singleWord_of_isLiteral color (keyword.trans known)
        obtain ⟨_, _, read, -⟩ := callName_eq_some.mp named
        rw [single.parse_eq] at read
        cases read
      rw [word]
      simp

/-- Whether the values of the type are its literals and the calls of its functions. -/
def isSimple : DataType → Bool
  | any | ratio | position | familyName => false
  | _ => true

theorem recognizes_simple {type : DataType} (simple : isSimple type = true) (t : Text) :
    type.recognizes t = (isLiteral type t || callsOneOf (functions type) t) := by
  cases type with
  | any | ratio | position | familyName => cases simple
  | color => exact isColor_eq t
  | length =>
    rw [recognizes, isLength, isLiteral, functions, Bool.or_assoc, Bool.or_comm]
  | lineWidth =>
    rw [recognizes, isLength, isLiteral, functions, Bool.or_assoc (callsOneOf _ t),
      Bool.or_comm (callsOneOf _ t), ← Bool.or_assoc, ← Bool.or_assoc]
  | percentage | number => rfl
  | angle => exact Bool.or_comm _ _
  | integer =>
    have none : callsOneOf [] t = false := by
      rw [callsOneOf]
      cases callName? t <;> rfl
    simp [recognizes, isLiteral, functions, none]
  | url | image => rfl

/-- The value is of the type in canonical spacing only. The sign of a number may be between two single
spaces, and so may a dash in the name of a function. For a position there may be blanks in the calls as
long as canonical spacing takes all of them away. -/
def Gains : DataType → Text → Prop
  | ratio, v => ∃ a b, splitFirst '/' v = some (a, b) ∧
      (Joins isNumber a ∧ (isNumber (trim b) = true ∨ Joins isNumber b) ∨
        isNumber (trim a) = true ∧ Joins isNumber b)
  | position, v => ¬ Placed Unbroken (parse v) ∧ (Placed Tightens (parse v) ∨ SpacedPosition v)
  | type, v => Joins (isLiteral type) v ∨ SpacedCall (functions type) v

theorem gains_simple {type : DataType} (simple : isSimple type = true) {v : Text} :
    Gains type v ↔ Joins (isLiteral type) v ∨ SpacedCall (functions type) v := by
  cases type with
  | ratio | position => cases simple
  | _ => rfl

theorem not_gains {type : DataType} (kept : type = any ∨ type = familyName) {v : Text} : ¬ Gains type v := by
  rcases kept with rfl | rfl <;> rintro (⟨_, _, _, _, literal⟩ | ⟨_, _, _, _, _, known, _⟩) <;> contradiction

/-- Canonical spacing takes no value of a type away. -/
theorem recognizes_compactText (type : DataType) (v : Text) :
    type.recognizes (trim (compactText v)) = true ↔ type.recognizes (trim v) = true ∨ Gains type v := by
  by_cases simple : isSimple type = true
  · rw [recognizes_simple simple, recognizes_simple simple, gains_simple simple, Bool.or_eq_true, Bool.or_eq_true,
      recognized_iff fun w => singleWord_of_isLiteral type (t := w), callsOneOf_compactText (hyphenated_functions type)]
    tauto
  · cases type with
    | any => simp [recognizes]
    | familyName =>
      have never : ¬ Gains familyName v := not_gains (.inr rfl)
      simp [recognizes, isFamilyName_compactText, never]
    | ratio =>
      rw [recognizes, recognizes, isRatio_compactText, isRatio_trim, isRatio_iff, Gains, ← exists_or]
      refine exists_congr fun a => ?_
      rw [← exists_or]
      refine exists_congr fun b => ?_
      tauto
    | position =>
      rw [recognizes, recognizes, isPosition_compactText, isPosition_trim, isPosition_iff_placed, Gains]
      have mono : Placed Unbroken (parse v) → Placed Tightens (parse v) := fun placed =>
        placed.mono fun args unbroken c member => unbroken c ((shrinks_compact args).subset member)
      tauto
    | _ => exact absurd rfl simple

/-- What is gained was not there. -/
theorem not_recognizes_of_gains {type : DataType} {v : Text} (gains : Gains type v) :
    type.recognizes (trim v) = false := by
  by_cases simple : isSimple type = true
  · rw [recognizes_simple simple, Bool.or_eq_false_iff]
    have single (w : Text) := singleWord_of_isLiteral type (t := w)
    rcases (gains_simple simple).mp gains with joins | spaced
    · refine ⟨Bool.eq_false_iff.mpr fun literal => joins.not_single single (single _ literal),
        Bool.eq_false_iff.mpr fun calls => joins.no_paren single ?_⟩
      exact (mem_trim rfl v).mp (paren_of_callsOneOf calls)
    · exact ⟨Bool.eq_false_iff.mpr fun literal => (single _ literal).no_paren spaced.paren,
        spaced.no_call (hyphenated_functions type)⟩
  · cases type with
    | any => exact absurd gains (not_gains (.inl rfl))
    | familyName => exact absurd gains (not_gains (.inr rfl))
    | ratio =>
      obtain ⟨a, b, cut, joined⟩ := gains
      rw [recognizes, isRatio_trim, Bool.eq_false_iff]
      intro ratio
      obtain ⟨a', b', cut', left, right⟩ := isRatio_iff.mp ratio
      rw [cut, Option.some.injEq, Prod.mk.injEq] at cut'
      obtain ⟨rfl, rfl⟩ := cut'
      have single (w : Text) := singleWord_of_isNumber (t := w)
      rcases joined with ⟨joins, -⟩ | ⟨-, joins⟩
      · exact joins.not_single single (single _ left)
      · exact joins.not_single single (single _ right)
    | position =>
      rw [recognizes, isPosition_trim, Bool.eq_false_iff, Ne, isPosition_iff_placed]
      exact gains.1
    | _ => exact absurd rfl simple

/-- A reference to a variable is as good as a value of the type, but no such value itself. -/
theorem not_reference {type : DataType} (other : type ≠ any) (other' : type ≠ familyName) {t : Text}
    (recognized : type.recognizes t = true) : callsOneOf ["var"] t = false := by
  refine Bool.eq_false_iff.mpr fun calls => ?_
  have paren := paren_of_callsOneOf calls
  obtain ⟨name, args, read, known⟩ := callsOneOf_iff.mp calls
  have reference := List.mem_singleton.mp known
  by_cases simple : isSimple type = true
  · rw [recognizes_simple simple, Bool.or_eq_true] at recognized
    rcases recognized with literal | calls
    · exact (singleWord_of_isLiteral type literal).no_paren paren
    · obtain ⟨name', args', read', known'⟩ := callsOneOf_iff.mp calls
      rw [read] at read'
      cases read'
      rw [reference] at known'
      revert known'
      cases type <;> decide
  · cases type with
    | any => exact other rfl
    | familyName => exact other' rfl
    | ratio =>
      obtain ⟨a, b, cut, left, right⟩ := isRatio_iff.mp recognized
      obtain ⟨rfl, -⟩ := splitFirst_eq_some.mp cut
      have sides : '(' ∈ trim a ∨ '(' ∈ trim b := by
        rw [mem_trim rfl, mem_trim rfl]
        simpa using paren
      exact sides.elim (singleWord_of_isNumber left).no_paren (singleWord_of_isNumber right).no_paren
    | position =>
      have placed := isPosition_iff_placed.mp recognized
      rw [read] at placed
      cases placed with | call known' =>
      rw [reference] at known'
      revert known'
      decide
    | _ => exact absurd rfl simple

/-- The name of a reference has no dash. -/
theorem reference_compactText (v : Text) :
    callsOneOf ["var"] (trim (compactText v)) = callsOneOf ["var"] (trim v) := by
  have apart : ¬ SpacedCall ["var"] v := by
    rintro ⟨name, written, arguments, spread, differ, known, -, -⟩
    have inside : '-'.toLower ∈ Text.lower name := List.mem_map_of_mem (spread.marks differ).1
    rw [List.mem_singleton.mp known] at inside
    exact absurd inside (by decide)
  have same : callsOneOf ["var"] (trim (compactText v)) = true ↔
      callsOneOf ["var"] (trim v) = true ∨ SpacedCall ["var"] v := callsOneOf_compactText (by decide)
  rw [Bool.eq_iff_iff, same]
  exact or_iff_left apart

theorem accepts_iff {type : DataType} {t : Text} : type.accepts t = true ↔
    trim t ≠ [] ∧ (callsOneOf ["var"] (trim t) = true ∨ type.recognizes (trim t) = true) := by
  simp [accepts]

theorem not_accepts_of_gains {type : DataType} {v : Text} (gains : Gains type v) : type.accepts v = false := by
  refine Bool.eq_false_iff.mpr fun accepted => ?_
  obtain ⟨-, reference | recognized⟩ := accepts_iff.mp accepted
  · have gained := (recognizes_compactText type v).mpr (.inr gains)
    have none : callsOneOf ["var"] (trim (compactText v)) = false :=
      not_reference (fun same => not_gains (.inl same) gains) (fun same => not_gains (.inr same) gains) gained
    rw [reference_compactText, reference] at none
    cases none
  · simp [not_recognizes_of_gains gains] at recognized

/-- The types of the canonical spacing are those of the value and the gained ones. -/
theorem accepts_compactText {type : DataType} {v : Text} :
    type.accepts (compactText v) = true ↔ type.accepts v = true ∨ Gains type v := by
  have blank : trim (compactText v) = [] ↔ trim v = [] := by
    rw [trim_eq_nil, trim_eq_nil, ink_compactText]
  have visible : Gains type v → trim v ≠ [] := fun gains nothing => by
    have gained := (recognizes_compactText type v).mpr (.inr gains)
    rw [blank.mpr nothing, ← nothing, not_recognizes_of_gains gains] at gained
    cases gained
  rw [accepts_iff, accepts_iff, recognizes_compactText, reference_compactText, Ne, blank]
  tauto

section

variable {type : DataType} {v : Text}

theorem accepts_same_iff : type.accepts (compactText v) = type.accepts v ↔ ¬ Gains type v := by
  constructor
  · intro same gains
    have gained := accepts_compactText.mpr (.inr gains)
    rw [same, not_accepts_of_gains gains] at gained
    cases gained
  · intro kept
    rw [Bool.eq_iff_iff, accepts_compactText]
    exact or_iff_left kept

/-- The first type that the canonical spacing is a value of is the first one of the value itself, if it is
no gained one: the types in front of it do not take the value either. -/
theorem infer_of_accepted {types : List DataType} (found : infer (compactText v) types = some type)
    (accepted : type.accepts v = true) : infer v types = some type := by
  obtain ⟨-, front, rest, parts, refused⟩ := List.find?_eq_some_iff_append.mp found
  refine List.find?_eq_some_iff_append.mpr ⟨accepted, front, rest, parts, fun other member => ?_⟩
  rw [Bool.not_eq_true', Bool.eq_false_iff]
  intro taken
  have refused := refused other member
  simp [accepts_compactText.mpr (.inl taken)] at refused

theorem infer_eq_none_of_compactText {types : List DataType} (found : infer (compactText v) types = none) :
    infer v types = none :=
  List.find?_eq_none.mpr fun type member taken =>
    List.find?_eq_none.mp found type member (accepts_compactText.mpr (.inl taken))

end

/-- A value and its canonical spacing are of the same types, and the same type is inferred for them, up to
the types that are gained. -/
theorem same_types_iff (v : Text) :
    (∀ type : DataType, type.accepts (compactText v) = type.accepts v ↔ ¬ Gains type v) ∧
      ∀ types, infer (compactText v) types = infer v types ↔
        ∀ type, infer (compactText v) types = some type → ¬ Gains type v := by
  refine ⟨fun type => accepts_same_iff, fun types => ⟨fun same type found gains => ?_, fun kept => ?_⟩⟩
  · rw [same] at found
    have accepted := List.find?_some found
    rw [not_accepts_of_gains gains] at accepted
    cases accepted
  · cases found : infer (compactText v) types with
    | none => exact (infer_eq_none_of_compactText found).symm
    | some type =>
      have accepted := List.find?_some found
      rw [accepts_same_iff.mpr (kept type found)] at accepted
      exact (infer_of_accepted found accepted).symm

/-- The spaces of a sum keep it from being a position. -/
theorem sum_becomes_position : position.accepts "calc(1px + 2px)" = false ∧
    position.accepts (compactText "calc(1px + 2px)") = true ∧
    infer "calc(1px + 2px)" [position, length] = some length ∧
    infer (compactText "calc(1px + 2px)") [position, length] = some position := by
  have joined : compactText "calc(1px + 2px)" = "calc(1px+2px)" := by
    rw [compactText_eq_compact]
    decide +kernel
  rw [joined]
  decide +kernel

end AtomicCss.DataType
