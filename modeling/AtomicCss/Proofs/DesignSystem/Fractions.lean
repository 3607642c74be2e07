import AtomicCss.DesignSystem.Builder
import AtomicCss.Proofs.DesignSystem.Soundness
import AtomicCss.Proofs.Negative.SignFlip
import AtomicCss.Proofs.Variants.Application

/-! Parts of the whole, written as a fraction behind a root. Whatever the theme and the variants,
a fraction reaches the one utility of its root and is divided there as it is written. Only the text
`0` is refused as a divisor, so that a longer row of zeros comes out as a division by zero. -/
namespace AtomicCss
open Text

/-- Zeros in another number than one are several. -/
theorem several_of_zeros {t : Text} (digits : isDigits t = true) (other : t ≠ "0")
    (zeros : ∀ d ∈ t, d = '0') : 1 < t.length := by
  match t with
  | [] => cases digits
  | [d] =>
    obtain rfl : d = '0' := zeros d (by simp)
    exact absurd rfl other
  | _ :: _ :: _ => simp

/-- A text that ends with a percent sign has no numeral as its last factor. -/
theorem lastFactor_percent (front : Text) : lastFactor? (front ++ ['%']) = none := by
  unfold lastFactor?
  split
  · rename_i lhs factor found
    split
    · rename_i numeral
      simp only [Bool.and_eq_true] at numeral
      have whole := splitLastText_whole found
      have last : '%' ∈ factor := by
        rcases List.eq_nil_or_concat' factor with rfl | ⟨before, d, rfl⟩
        · cases numeral.1
        · simp only [← List.append_assoc] at whole
          obtain ⟨rfl⟩ := (List.append_inj' whole rfl).2
          simp
      exact absurd (isNumeralChar_of_isNumeral numeral.1 '%' last) (by decide)
    · rfl
  · rfl

/-- The fraction of the whole, with the sign that it is written with. -/
def partText (negative : Bool) (a b : Text) : Text :=
  if negative then "calc(calc(" ++ a ++ "/" ++ b ++ " * 100%) * -1)"
  else "calc(" ++ a ++ "/" ++ b ++ " * 100%)"

theorem negate_part (a b : Text) :
    negateValue ("calc(" ++ a ++ "/" ++ b ++ " * 100%)") = partText true a b := by
  have body : ("calc(" ++ a ++ "/" ++ b ++ " * 100%)" : Text) =
      "calc(" ++ ((a ++ "/" ++ b ++ " * 100" ++ ['%']) ++ ")") := by
    simp
  rw [body, negate_calc, lastFactor_percent]
  simp [partText]

namespace FunctionalUtility

/-- The utility divides the whole and sets these properties to the part. It has no other use for a
modifier. -/
structure Divides (u : FunctionalUtility) (properties : List Text) : Prop where
  fraction : u.fraction = Standard.percentageFraction
  unmodified : u.modifiers = none
  uncolored : u.isColor = false
  emit : u.emit = Standard.declareAll properties

theorem percentageFraction_eq_some {a b t : Text} : Standard.percentageFraction a b = some t ↔
    (isDigits a = true ∧ isDigits b = true ∧ b ≠ "0") ∧ partText false a b = t := by
  rw [Standard.percentageFraction, Option.ite_none_right_eq_some, Option.some.injEq]
  rfl

variable {u : FunctionalUtility} {theme : Theme} {properties : List Text} {a b : Text}

/-- What such a utility answers to a name with a named modifier is a part of the whole. -/
theorem Divides.of_admits {negative : Bool} {nodes : List Css.Node} (divides : u.Divides properties)
    (admits : u.Admits theme (some (.named a)) (some (.named b)) negative nodes) :
    (isDigits a = true ∧ isDigits b = true ∧ b ≠ "0") ∧
      nodes = properties.map fun property => Css.declare property (partText negative a b) := by
  obtain ⟨-, takes, modified, -⟩ := admits
  cases takes with
  | named whole found =>
    cases modified with
    | resolved policy gives =>
      rw [colors, divides.uncolored] at policy
      cases policy with
      | declared same => simp [divides.unmodified] at same
      | color undeclared color => cases color
  | fraction found =>
    cases modified with
    | none =>
      rw [divides.fraction] at found
      obtain ⟨digits, rfl⟩ := percentageFraction_eq_some.mp found
      refine ⟨digits, ?_⟩
      rw [divides.emit]
      cases negative with
      | false => rfl
      | true =>
        rw [← negate_part]
        rfl

end FunctionalUtility

namespace Standard

/-- The roots behind which a fraction is a part of the whole, and what each sets to the part. -/
def partProperties : List (Text × List Text) :=
  [("w", ["width"]), ("h", ["height"]), ("size", ["width", "height"]), ("inset", ["inset"]),
   ("top", ["top"]), ("right", ["right"]), ("bottom", ["bottom"]), ("left", ["left"])]

variable {root : Text} {properties : List Text} {u : FunctionalUtility}

theorem divides_of_registered (divided : partProperties.lookup root = some properties)
    (registered : (root, u) ∈ functionalUtilities) : u.Divides properties := by
  have dividing : functionalUtilities.filter (fun r => (partProperties.lookup r.1).isSome) =
      insetUtilities ++ sizeUtilities.tail := rfl
  have each : ∀ r ∈ insetUtilities ++ sizeUtilities.tail,
      ∃ ps, partProperties.lookup r.1 = some ps ∧ r.2.Divides ps := by
    simp only [insetUtilities, sizeUtilities, List.tail_cons, List.cons_append, List.nil_append,
      List.forall_mem_cons, List.not_mem_nil, false_implies, implies_true, and_true]
    refine ⟨?_, ?_, ?_, ?_, ?_, ?_, ?_, ?_⟩
    all_goals exact ⟨_, rfl, rfl, rfl, rfl, rfl⟩
  have member : (root, u) ∈ insetUtilities ++ sizeUtilities.tail := by
    rw [← dividing, List.mem_filter]
    exact ⟨registered, by simp [divided]⟩
  obtain ⟨ps, found, divides⟩ := each _ member
  obtain rfl : ps = properties := Option.some.inj (found.symm.trans divided)
  exact divides

theorem mem_functional : (root, .functional u) ∈ utilities.records ↔ (root, u) ∈ functionalUtilities := by
  simp [utilities]

theorem mem_static {nodes : List Css.Node} :
    (root, .static nodes) ∈ utilities.records ↔ (root, nodes) ∈ staticUtilities := by
  simp [utilities]

/-- A divided root is not cut shorter, and no other utility is registered under a root that goes
on behind it. -/
theorem root_of_recut {a r v : Text} (divided : partProperties.lookup root = some properties)
    (registered : (r, u) ∈ functionalUtilities) (whole : root ++ '-' :: a = r ++ '-' :: v) :
    r = root ∧ v = a := by
  have known : root ∈ partProperties.map Prod.fst := by
    obtain ⟨before, after, entries, -⟩ := List.lookup_eq_some_iff.mp divided
    simp [entries]
  have undashed : ∀ root ∈ partProperties.map Prod.fst, '-' ∉ root := by decide
  have others : ∀ root ∈ partProperties.map Prod.fst, ∀ r ∈ functionalUtilities.map Prod.fst,
      ¬ root ++ ['-'] <+: r := by decide
  rcases cut_behind_first (undashed _ known) whole with rfl | behind
  · simp at whole
    exact ⟨rfl, whole.symm⟩
  · exact absurd behind (others _ known _ (List.mem_map_of_mem registered))

/-- No static utility has a name with a fraction. -/
theorem static_fractionless {name : Text} {nodes : List Css.Node}
    (registered : (name, nodes) ∈ staticUtilities) : '/' ∉ name := by
  have names : ∀ name ∈ staticUtilities.map Prod.fst, '/' ∉ name := by decide
  exact names _ (List.mem_map_of_mem registered)

end Standard

theorem Css.placed_declared (properties : List Text) (value : Text) (important : Bool) :
    let nodes := properties.map fun property => declare property value
    (placed [] (if important then markImportant nodes else nodes)).map Prod.snd =
      properties.map fun property => ⟨property, value, important⟩ := by
  induction properties with
  | nil => cases important <;> rfl
  | cons property properties ih =>
    cases important <;>
      simpa [placed, placedNode, markImportant, markNode, declare] using ih

namespace DesignSystem

variable {system : DesignSystem} {root a b : Text} {properties : List Text} {negative : Bool}

/-- A fraction behind a divided root is declared as a part of the whole or not at all. -/
theorem part_of_declares {term : UtilityTerm} {nodes : List Css.Node}
    (registry : system.utilities = Standard.utilities)
    (divided : Standard.partProperties.lookup root = some properties)
    (offered : Offered term root (some (.named a)) (some (.named b)) negative)
    (declares : system.Declares term nodes) :
    (isDigits a = true ∧ isDigits b = true ∧ b ≠ "0") ∧
      nodes = properties.map fun property => Css.declare property (partText negative a b) := by
  cases offered with | cut _ _ whole =>
  cases declares with
  | static named first =>
    have registered := mem_statics.mp (List.mem_of_mem_head? first)
    rw [registry, Standard.mem_static] at registered
    cases named with | modified =>
    exact absurd (by simp) (Standard.static_fractionless registered)
  | functional again registered admits =>
    rw [registry, Standard.mem_functional] at registered
    cases again with | cut _ _ recut =>
    obtain ⟨rfl, rfl⟩ := Standard.root_of_recut divided registered (whole.symm.trans recut)
    exact (Standard.divides_of_registered divided registered).of_admits admits

/-- The standard utilities and variants over a theme, with a class prefix or without one. -/
def standardOver (theme : Theme) (lead : Option Text) : DesignSystem :=
  ({ Builder.standard theme with lead }).build

/-- What is emitted for a fraction is the part of the whole, with the digits as they are written.
The divisor is not zero exactly if it is not a row of two zeros or more. -/
theorem divisor_nonzero_iff (theme : Theme) (lead : Option Text) {t : Text} {c : Candidate}
    {out : List Css.Node} (divided : Standard.partProperties.lookup root = some properties)
    (read : (standardOver theme lead).parseCandidate t = some c)
    (offered : Offered c.base root (some (.named a)) (some (.named b)) negative)
    (compiled : (standardOver theme lead).compile t = some out) :
    isDigits a = true ∧ isDigits b = true ∧
      ((Css.placed [] out).map Prod.snd).Perm
        (properties.map fun property => ⟨property, partText negative a b, c.important⟩) ∧
      (Numeral.natOfDigits b ≠ 0 ↔ ¬ (1 < b.length ∧ ∀ d ∈ b, d = '0')) := by
  rw [compile, read, Option.bind_eq_bind, Option.bind_some, Option.bind_eq_bind] at compiled
  obtain ⟨nodes, resolved, applied⟩ := Option.bind_eq_some_iff.mp compiled
  have utility : ∀ name value m, c.base ≠ .property name value m := by
    rintro name value m same
    rw [same] at offered
    cases offered
  obtain ⟨declared, declares, rfl⟩ := resolve_sound utility resolved
  obtain ⟨⟨numerator, denominator, other⟩, rfl⟩ := part_of_declares rfl divided offered declares
  refine ⟨numerator, denominator, ?_, ?_⟩
  · have kept := Variants.declarations_apply applied
    rwa [Css.placed_declared] at kept
  · rw [ne_eq, Numeral.natOfDigits_eq_zero_iff denominator, not_iff_not]
    exact ⟨fun zeros => ⟨several_of_zeros denominator other zeros, zeros⟩, And.right⟩

/-- A negated part of the whole under a variant. The divisor begins and ends with a zero. -/
theorem fortieth_divided :
    let system := standardOver Theme.empty none
    let c : Candidate :=
      ⟨.functional "inset" (some (.named "3")) (some (.named "040")) true, [.static "hover"], true⟩
    let value := "calc(calc(3/040 * 100%) * -1)"
    let out : List Css.Node :=
      [.atRule "media" "(hover: hover)"
        [.rule ".hover\\:-inset-3\\/040\\!:hover" [.declaration ⟨"inset", value, true⟩]]]
    system.parseCandidate "hover:-inset-3/040!" = some c ∧
      Offered c.base "inset" (some (.named "3")) (some (.named "040")) true ∧
      system.compile "hover:-inset-3/040!" = some out ∧ Numeral.natOfDigits "040" ≠ 0 := by
  intro system c value out
  have read : system.parseCandidate "hover:-inset-3/040!" = some c := by decide +kernel
  have offered : Offered c.base "inset" (some (.named "3")) (some (.named "040")) true := .cut _ _ rfl
  have compiled : system.compile "hover:-inset-3/040!" = some out := by decide +kernel
  have several : ¬ (1 < "040".length ∧ ∀ d ∈ "040".toList, d = '0') := by
    rintro ⟨-, zeros⟩
    exact absurd (zeros '4' (.tail '0' (.head _))) (by decide)
  obtain ⟨-, -, -, nonzero⟩ := divisor_nonzero_iff Theme.empty none rfl read offered compiled
  exact ⟨read, offered, compiled, nonzero.mpr several⟩

/-- Two zeros are divided by. -/
theorem zero_divisor_emitted :
    ¬ ∀ (theme : Theme) (lead : Option Text) (t root a b : Text) (properties : List Text)
        (negative : Bool) (c : Candidate) (out : List Css.Node),
      Standard.partProperties.lookup root = some properties →
      (standardOver theme lead).parseCandidate t = some c →
      Offered c.base root (some (.named a)) (some (.named b)) negative →
      (standardOver theme lead).compile t = some out →
      Numeral.natOfDigits b ≠ 0 := by
  intro nonzero
  have read : (standardOver Theme.empty none).parseCandidate "w-1/00" =
      some ⟨.functional "w" (some (.named "1")) (some (.named "00")) false, [], false⟩ := by decide +kernel
  have compiled : (standardOver Theme.empty none).compile "w-1/00" =
      some [.rule ".w-1\\/00" [.declaration ⟨"width", "calc(1/00 * 100%)", false⟩]] := by decide +kernel
  exact nonzero _ _ _ _ _ _ _ _ _ _ rfl read (.cut _ _ rfl) compiled rfl

end DesignSystem

end AtomicCss
