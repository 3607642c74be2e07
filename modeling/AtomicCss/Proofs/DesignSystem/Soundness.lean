import AtomicCss.DesignSystem.Resolution
import AtomicCss.Proofs.Text.Cut

/-! What a design system answers to a candidate was declared. Its nodes are those of a
static utility of exactly that name, or those of a utility under a root of the name
that admits the value, the modifier and the sign, each of which has its effect. -/
namespace AtomicCss
open Text

theorem orElse_eq_some {α : Type} {o p : Option α} {a : α} :
    (o <|> p) = some a ↔ o = some a ∨ o = none ∧ p = some a := by
  cases o <;> simp

namespace FunctionalUtility

/-- The text that a modifier stands for under a policy. -/
inductive Gives (u : FunctionalUtility) (theme : Theme) (isColor : Bool) :
    ModifierPolicy → Argument → Text → Prop
  | any (m : Argument) : Gives u theme isColor .any m m.text
  | besideTable (table : List (Text × Text)) (t : Text) :
    Gives u theme isColor (.lookup table) (.arbitrary t) t
  | entry {table : List (Text × Text)} {name t : Text} (found : table.lookup name = some t) :
    Gives u theme isColor (.lookup table) (.named name) t
  | opacity {table : List (Text × Text)} {name : Text} (absent : table.lookup name = none)
    (color : isColor = true) (number : isNumeral name = true) :
    Gives u theme isColor (.lookup table) (.named name) (name ++ ['%'])
  | besideTheme (namespaces : List Text) (t : Text) :
    Gives u theme isColor (.theme namespaces) (.arbitrary t) t
  | token {namespaces : List Text} {name t : Text}
    (found : theme.resolve (some name) namespaces = some t) :
    Gives u theme isColor (.theme namespaces) (.named name) t
  | bare {namespaces : List Text} {name t : Text}
    (absent : theme.resolve (some name) namespaces = none) (found : u.bareModifier name = some t) :
    Gives u theme isColor (.theme namespaces) (.named name) t

/-- The policy that was declared, or else the one of colours. -/
inductive Policy (u : FunctionalUtility) (isColor : Bool) : ModifierPolicy → Prop
  | declared {p : ModifierPolicy} (same : u.modifiers = some p) : Policy u isColor p
  | color (undeclared : u.modifiers = none) (color : isColor = true) : Policy u isColor (.lookup [])

theorem policy_iff {u : FunctionalUtility} {isColor : Bool} {p : ModifierPolicy} (some_policy : p ≠ .none) :
    u.Policy isColor p ↔ u.policyFor isColor = p := by
  unfold policyFor
  constructor
  · rintro (same | ⟨undeclared, color⟩)
    · simp [same]
    · simp [undeclared, color]
  · rintro rfl
    cases same : u.modifiers with
    | some p => exact .declared same
    | none =>
      cases isColor with
      | true => exact .color same rfl
      | false => simp [same] at some_policy

section

variable {u : FunctionalUtility} {theme : Theme} {isColor : Bool}

/-- There is one policy that gives anything. -/
theorem gives_policyFor_iff {m : Argument} {t : Text} :
    (∃ p, u.Policy isColor p ∧ u.Gives theme isColor p m t) ↔
      u.Gives theme isColor (u.policyFor isColor) m t := by
  constructor
  · rintro ⟨p, policy, gives⟩
    have some_policy : p ≠ .none := by
      rintro rfl
      cases gives
    rwa [(policy_iff some_policy).mp policy]
  · intro gives
    have some_policy : u.policyFor isColor ≠ .none := by
      intro same
      rw [same] at gives
      cases gives
    exact ⟨_, (policy_iff some_policy).mpr rfl, gives⟩

theorem gives_lookup_iff {table : List (Text × Text)} {name t : Text} :
    u.Gives theme isColor (.lookup table) (.named name) t ↔ table.lookup name = some t ∨
      table.lookup name = none ∧ (isColor = true ∧ isNumeral name = true) ∧ name ++ ['%'] = t := by
  constructor
  · intro gives
    cases gives with
    | entry found => exact .inl found
    | opacity absent color number => exact .inr ⟨absent, ⟨color, number⟩, rfl⟩
  · rintro (found | ⟨absent, ⟨color, number⟩, rfl⟩)
    · exact .entry found
    · exact .opacity absent color number

theorem gives_theme_iff {namespaces : List Text} {name t : Text} :
    u.Gives theme isColor (.theme namespaces) (.named name) t ↔
      theme.resolve (some name) namespaces = some t ∨
        theme.resolve (some name) namespaces = none ∧ u.bareModifier name = some t := by
  constructor
  · intro gives
    cases gives with
    | token found => exact .inl found
    | bare absent found => exact .inr ⟨absent, found⟩
  · rintro (found | ⟨absent, found⟩)
    · exact .token found
    · exact .bare absent found

/-- Between brackets a modifier is its own text, unless all modifiers are refused. -/
theorem gives_arbitrary_iff {p : ModifierPolicy} {text t : Text} :
    u.Gives theme isColor p (.arbitrary text) t ↔ p ≠ .none ∧ text = t := by
  constructor
  · rintro (_ | _ | _) <;> exact ⟨by simp, rfl⟩
  · rintro ⟨some_policy, rfl⟩
    cases p with
    | none => exact absurd rfl some_policy
    | any => exact .any _
    | lookup table => exact .besideTable table text
    | theme namespaces => exact .besideTheme namespaces text

theorem gives_iff {m : Argument} {t : Text} :
    u.modifierText theme isColor m = some t ↔
      ∃ p, u.Policy isColor p ∧ u.Gives theme isColor p m t := by
  rw [gives_policyFor_iff, modifierText.eq_def]
  cases m with
  | arbitrary text =>
    rw [gives_arbitrary_iff]
    cases u.policyFor isColor <;> simp [Argument.text]
  | named name =>
    cases u.policyFor isColor with
    | none => exact iff_of_false (by simp) nofun
    | any =>
      constructor
      · rintro ⟨⟩
        exact .any (.named name)
      · rintro ⟨⟩
        rfl
    | lookup table =>
      rw [gives_lookup_iff]
      simp only [orElse_eq_some, Option.ite_none_right_eq_some, Bool.and_eq_true, Option.some.injEq]
      rfl
    | theme namespaces =>
      rw [gives_theme_iff]
      exact orElse_eq_some

end

/-- What a utility takes for a value: a text, with its type if it stood between brackets,
and the modifier that is left. Only a fraction of two names leaves none. -/
inductive Takes (u : FunctionalUtility) (theme : Theme) :
    Option UtilityValue → Option Argument → Text → Option DataType → Option Argument → Prop
  | default {m : Option Argument} {t : Text} (found : u.namedValue theme none = some t) :
    Takes u theme none m t none m
  | fraction {name denominator t : Text} (found : u.fraction name denominator = some t) :
    Takes u theme (some (.named name)) (some (.named denominator)) t none none
  | named {name t : Text} {m : Option Argument}
    (whole : ∀ denominator, m = some (.named denominator) → u.fraction name denominator = none)
    (found : u.namedValue theme (some name) = some t) : Takes u theme (some (.named name)) m t none m
  | listed {t hint : Text} {type : DataType} {m : Option Argument}
    (known : DataType.ofName? hint = some type)
    (listed : u.accepts type = true) : Takes u theme (some (.arbitrary t (some hint))) m t (some type) m
  | unlisted {t hint : Text} {m : Option Argument}
    (unknown : ∀ type, DataType.ofName? hint = some type → u.accepts type = false)
    (any : u.acceptsOnlyAny = true) : Takes u theme (some (.arbitrary t (some hint))) m t (some .any) m
  | inferred {t : Text} {type : DataType} {m : Option Argument}
    (inferred : DataType.infer t u.types = some type) :
    Takes u theme (some (.arbitrary t none)) m t (some type) m

section

variable {u : FunctionalUtility} {theme : Theme} {m left : Option Argument} {t : Text} {type : Option DataType}

theorem fractionValue_eq_some {name : Text} : u.fractionValue name m = some t ↔
    ∃ denominator, m = some (.named denominator) ∧ u.fraction name denominator = some t := by
  unfold fractionValue
  split
  · simp
  · rename_i other
    refine iff_of_false nofun ?_
    rintro ⟨denominator, same, -⟩
    exact other denominator same

theorem fractionValue_eq_none {name : Text} : u.fractionValue name m = none ↔
    ∀ denominator, m = some (.named denominator) → u.fraction name denominator = none := by
  unfold fractionValue
  split
  · simp
  · rename_i other
    exact iff_of_true rfl fun denominator same => absurd same (other denominator)

theorem arbitraryType_hinted {hint : Text} {type : DataType} :
    u.arbitraryType t (some hint) = some type ↔
      DataType.ofName? hint = some type ∧ u.accepts type = true ∨
        (∀ type, DataType.ofName? hint = some type → u.accepts type = false) ∧
          u.acceptsOnlyAny = true ∧ .any = type := by
  have unlisted : (DataType.ofName? hint).filter u.accepts = none ↔
      ∀ type, DataType.ofName? hint = some type → u.accepts type = false := by
    simp [Option.filter_eq_none_iff]
  rw [← Option.filter_eq_some_iff, ← unlisted]
  simp only [arbitraryType]
  cases (DataType.ofName? hint).filter u.accepts <;> simp

theorem takes_default : u.accept theme none m = some ⟨t, type, left⟩ ↔ u.Takes theme none m t type left := by
  simp only [accept, Option.map_eq_some_iff, Accepted.mk.injEq]
  constructor
  · rintro ⟨v, found, rfl, rfl, rfl⟩
    exact .default found
  · intro takes
    cases takes with
    | default found => exact ⟨_, found, rfl, rfl, rfl⟩

theorem takes_named {name : Text} : u.accept theme (some (.named name)) m = some ⟨t, type, left⟩ ↔
    u.Takes theme (some (.named name)) m t type left := by
  unfold accept
  dsimp only
  constructor
  · intro accepted
    cases fraction : u.fractionValue name m with
    | some v =>
      rw [fraction] at accepted
      cases accepted
      obtain ⟨denominator, rfl, found⟩ := fractionValue_eq_some.mp fraction
      exact .fraction found
    | none =>
      rw [fraction] at accepted
      obtain ⟨v, found, same⟩ := Option.map_eq_some_iff.mp accepted
      cases same
      exact .named (fractionValue_eq_none.mp fraction) found
  · intro takes
    cases takes with
    | fraction found => rw [fractionValue_eq_some.mpr ⟨_, rfl, found⟩]
    | named whole found => rw [fractionValue_eq_none.mpr whole, found, Option.map_some]

theorem takes_unhinted {text : Text} : u.accept theme (some (.arbitrary text none)) m = some ⟨t, type, left⟩ ↔
    u.Takes theme (some (.arbitrary text none)) m t type left := by
  simp only [accept, arbitraryType, Option.map_eq_some_iff, Accepted.mk.injEq]
  constructor
  · rintro ⟨v, found, rfl, rfl, rfl⟩
    exact .inferred found
  · intro takes
    cases takes with
    | inferred found => exact ⟨_, found, rfl, rfl, rfl⟩

theorem takes_hinted {text hint : Text} :
    u.accept theme (some (.arbitrary text (some hint))) m = some ⟨t, type, left⟩ ↔
      u.Takes theme (some (.arbitrary text (some hint))) m t type left := by
  simp only [accept, Option.map_eq_some_iff, Accepted.mk.injEq, arbitraryType_hinted]
  constructor
  · rintro ⟨v, ⟨known, listed⟩ | ⟨unknown, any, rfl⟩, rfl, rfl, rfl⟩
    · exact .listed known listed
    · exact .unlisted unknown any
  · intro takes
    cases takes with
    | listed known listed => exact ⟨_, .inl ⟨known, listed⟩, rfl, rfl, rfl⟩
    | unlisted unknown any => exact ⟨_, .inr ⟨unknown, any, rfl⟩, rfl, rfl, rfl⟩

theorem takes_iff {value : Option UtilityValue} {a : Accepted} :
    u.accept theme value m = some a ↔ u.Takes theme value m a.value a.type a.modifier := by
  rcases value with _ | (name | ⟨text, _ | hint⟩)
  · exact takes_default
  · exact takes_named
  · exact takes_unhinted
  · exact takes_hinted

end

/-- Whether the value is a colour: by its type between brackets, or by the utility's types. -/
def colors (u : FunctionalUtility) : Option DataType → Bool
  | some type => type == .color
  | none => u.isColor

/-- The value with its opacity, if it is a colour, and then with its sign. -/
def styled (isColor negative : Bool) (t : Text) (modifier : Option Text) : Text :=
  let t := match modifier with
    | some alpha => if isColor then withOpacity t alpha else t
    | none => t
  if negative then negateValue t else t

/-- Nothing is left of the modifier, or the policy gives it a text. -/
inductive Modified (u : FunctionalUtility) (theme : Theme) (isColor : Bool) :
    Option Argument → Option Text → Prop
  | none : Modified u theme isColor none none
  | resolved {m : Argument} {p : ModifierPolicy} {t : Text} (policy : u.Policy isColor p)
    (gives : u.Gives theme isColor p m t) : Modified u theme isColor (some m) (some t)

/-- The utility admits a value, a modifier and a sign, and gives these nodes for them. -/
inductive Admits (u : FunctionalUtility) (theme : Theme) (value : Option UtilityValue)
    (modifier : Option Argument) (negative : Bool) : List Css.Node → Prop
  | intro {t : Text} {type : Option DataType} {left : Option Argument} {resolved : Option Text}
    (sign : negative = true → u.supportsNegative = true)
    (takes : u.Takes theme value modifier t type left)
    (modified : u.Modified theme (u.colors type) left resolved)
    (some_nodes : u.emit (styled (u.colors type) negative t resolved) resolved ≠ []) :
    Admits u theme value modifier negative (u.emit (styled (u.colors type) negative t resolved) resolved)

/-- Nodes are an answer, and no nodes are none. -/
def ofNodes : List Css.Node → Outcome
  | [] => .retry
  | nodes => .matched nodes

theorem ofNodes_eq_matched {emitted nodes : List Css.Node} :
    ofNodes emitted = .matched nodes ↔ emitted = nodes ∧ nodes ≠ [] := by
  cases emitted with
  | nil =>
    refine iff_of_false nofun ?_
    rintro ⟨rfl, some_left⟩
    exact some_left rfl
  | cons n ns =>
    constructor
    · rintro ⟨⟩
      exact ⟨rfl, by simp⟩
    · rintro ⟨rfl, -⟩
      rfl

theorem produce_eq_matched {u : FunctionalUtility} {isColor negative : Bool} {t : Text}
    {resolved : Option Text} {nodes : List Css.Node} :
    u.produce isColor negative t resolved = .matched nodes ↔
      u.emit (styled isColor negative t resolved) resolved = nodes ∧ nodes ≠ [] := by
  have same : u.produce isColor negative t resolved =
      ofNodes (u.emit (styled isColor negative t resolved) resolved) := rfl
  rw [same, ofNodes_eq_matched]

/-- Only a utility that allows the sign and takes the value decides anything. -/
theorem takes_of_answer {u : FunctionalUtility} {theme : Theme} {value : Option UtilityValue}
    {modifier : Option Argument} {negative : Bool}
    (decided : u.answer theme value modifier negative ≠ .retry) :
    (negative = true → u.supportsNegative = true) ∧ ∃ t type left, u.Takes theme value modifier t type left := by
  unfold answer at decided
  split at decided
  · contradiction
  · rename_i signed
    refine ⟨by simpa using signed, ?_⟩
    split at decided
    · contradiction
    · rename_i a accepted
      exact ⟨a.value, a.type, a.modifier, takes_iff.mp accepted⟩

/-- The answer to a value that is taken, given the modifier that is left. -/
def reply (u : FunctionalUtility) (theme : Theme) (negative : Bool) (t : Text) (type : Option DataType) :
    Option Argument → Outcome
  | none => u.produce (u.colors type) negative t none
  | some m =>
    match u.modifierText theme (u.colors type) m with
    | some text => u.produce (u.colors type) negative t (some text)
    | none => if type.isSome then .stop else .retry

theorem answer_of_takes {u : FunctionalUtility} {theme : Theme} {value : Option UtilityValue}
    {modifier left : Option Argument} {negative : Bool} {t : Text} {type : Option DataType}
    (sign : negative = true → u.supportsNegative = true)
    (takes : u.Takes theme value modifier t type left) :
    u.answer theme value modifier negative = u.reply theme negative t type left := by
  have accepted : u.accept theme value modifier = some ⟨t, type, left⟩ := takes_iff.mpr takes
  rw [answer, if_neg (by simpa using sign), accepted]
  cases left <;> rfl

/-- A utility answers with nodes exactly when it admits what is offered. -/
theorem answer_eq_matched {u : FunctionalUtility} {theme : Theme} {value : Option UtilityValue}
    {modifier : Option Argument} {negative : Bool} {nodes : List Css.Node} :
    u.answer theme value modifier negative = .matched nodes ↔
      u.Admits theme value modifier negative nodes := by
  constructor
  · intro found
    obtain ⟨sign, t, type, left, takes⟩ := takes_of_answer (by rw [found]; simp)
    rw [answer_of_takes sign takes] at found
    cases left with
    | none =>
      rw [reply] at found
      obtain ⟨rfl, some_nodes⟩ := produce_eq_matched.mp found
      exact .intro sign takes .none some_nodes
    | some m =>
      cases given : u.modifierText theme (u.colors type) m with
      | some text =>
        rw [reply, given] at found
        obtain ⟨p, policy, gives⟩ := gives_iff.mp given
        obtain ⟨rfl, some_nodes⟩ := produce_eq_matched.mp found
        exact .intro sign takes (.resolved policy gives) some_nodes
      | none =>
        rw [reply, given] at found
        dsimp only at found
        split at found <;> cases found
  · rintro ⟨sign, takes, modified, some_nodes⟩
    rw [answer_of_takes sign takes]
    have produced := produce_eq_matched.mpr ⟨rfl, some_nodes⟩
    cases modified with
    | none => exact produced
    | resolved policy gives =>
      rw [reply, gives_iff.mpr ⟨_, policy, gives⟩]
      exact produced

end FunctionalUtility

namespace Outcome

variable {α : Type} {offer : α → Outcome}

theorem firstOf_passed {x : α} (passed : offer x = .retry) (xs : List α) :
    firstOf offer (x :: xs) = firstOf offer xs := by
  rw [firstOf, passed]

theorem firstOf_decided {x : α} (decided : offer x ≠ .retry) (xs : List α) :
    firstOf offer (x :: xs) = offer x := by
  rw [firstOf]
  split
  · contradiction
  · rfl

/-- What is answered in the end is the first answer that is not passed on. -/
theorem firstOf_eq_iff {xs : List α} {o : Outcome} (decided : o ≠ .retry) :
    firstOf offer xs = o ↔ ∃ before x after, xs = before ++ x :: after ∧ offer x = o ∧
      ∀ y ∈ before, offer y = .retry := by
  induction xs with
  | nil => simp [firstOf, decided.symm]
  | cons x xs ih =>
    by_cases passed : offer x = .retry
    · rw [firstOf_passed passed, ih]
      constructor
      · rintro ⟨before, y, after, rfl, answer, earlier⟩
        exact ⟨x :: before, y, after, rfl, answer, List.forall_mem_cons.mpr ⟨passed, earlier⟩⟩
      · rintro ⟨before, y, after, whole, answer, earlier⟩
        cases before with
        | nil =>
          cases whole
          rw [passed] at answer
          exact absurd answer.symm decided
        | cons z before =>
          cases whole
          exact ⟨before, y, after, rfl, answer, fun w member => earlier w (List.mem_cons_of_mem _ member)⟩
    · rw [firstOf_decided passed]
      constructor
      · intro answer
        exact ⟨[], x, xs, rfl, answer, by simp⟩
      · rintro ⟨before, y, after, whole, answer, earlier⟩
        cases before with
        | nil =>
          cases whole
          exact answer
        | cons z before =>
          cases whole
          exact absurd (earlier x List.mem_cons_self) passed

theorem firstOf_matched {xs : List α} {nodes : List Css.Node} (found : firstOf offer xs = .matched nodes) :
    ∃ x ∈ xs, offer x = .matched nodes := by
  obtain ⟨before, x, after, rfl, answer, -⟩ := (firstOf_eq_iff (by simp)).mp found
  exact ⟨x, by simp, answer⟩

end Outcome

theorem mem_offerOrder {value : Option UtilityValue} {us : List FunctionalUtility} {u : FunctionalUtility}
    (member : u ∈ offerOrder value us) : u ∈ us := by
  unfold offerOrder at member
  split at member
  · rcases List.mem_append.mp member with first | last
    · exact (List.mem_filter.mp first).1
    · exact (List.mem_filter.mp last).1
  · exact member

theorem mem_functionals {us : Utilities} {root : Text} {u : FunctionalUtility} :
    u ∈ us.functionals root ↔ (root, .functional u) ∈ us.records := by
  unfold Utilities.functionals
  rw [List.mem_filterMap]
  constructor
  · rintro ⟨⟨n, record⟩, member, known⟩
    cases record with
    | static nodes => cases known
    | functional v =>
      obtain ⟨rfl, ⟨⟩⟩ := Option.ite_none_right_eq_some.mp known
      exact member
  · exact fun member => ⟨_, member, by simp⟩

theorem mem_statics {us : Utilities} {name : Text} {nodes : List Css.Node} :
    nodes ∈ us.statics name ↔ (name, .static nodes) ∈ us.records := by
  unfold Utilities.statics
  rw [List.mem_filterMap]
  constructor
  · rintro ⟨⟨n, record⟩, member, known⟩
    cases record with
    | functional u => cases known
    | static ns =>
      obtain ⟨rfl, ⟨⟩⟩ := Option.ite_none_right_eq_some.mp known
      exact member
  · exact fun member => ⟨_, member, by simp⟩

namespace DesignSystem

/-- The name of a static utility that a term without a sign can be. -/
inductive StaticName : UtilityTerm → Text → Prop
  | alone (root : Text) : StaticName (.static root false) root
  | valued (root value : Text) :
    StaticName (.functional root (some (.named value)) none false) (root ++ '-' :: value)
  | modified (root value m : Text) :
    StaticName (.functional root (some (.named value)) (some (.named m)) false)
      (root ++ '-' :: value ++ '/' :: m)

/-- The root, the value, the modifier and the sign with which a term is offered. -/
inductive Offered : UtilityTerm → Text → Option UtilityValue → Option Argument → Bool → Prop
  | static (root : Text) (negative : Bool) : Offered (.static root negative) root none none negative
  | bare (root : Text) (m : Option Argument) (negative : Bool) :
    Offered (.functional root none m negative) root none m negative
  | cut {root value r v : Text} (m : Option Argument) (negative : Bool)
    (same : root ++ '-' :: value = r ++ '-' :: v) :
    Offered (.functional root (some (.named value)) m negative) r (some (.named v)) m negative
  | arbitrary (root t : Text) (hint : Option Text) (m : Option Argument) (negative : Bool) :
    Offered (.functional root (some (.arbitrary t hint)) m negative) root (some (.arbitrary t hint)) m negative

/-- The nodes of a utility term, as they were declared. -/
inductive Declares (system : DesignSystem) (term : UtilityTerm) : List Css.Node → Prop
  | static {name : Text} {nodes : List Css.Node} (named : StaticName term name)
    (first : (system.utilities.statics name).head? = some nodes) : Declares system term nodes
  | functional {root : Text} {value : Option UtilityValue} {m : Option Argument} {negative : Bool}
    {u : FunctionalUtility} {nodes : List Css.Node} (offered : Offered term root value m negative)
    (registered : (root, .functional u) ∈ system.utilities.records)
    (admits : u.Admits system.theme value m negative nodes) : Declares system term nodes

theorem offer_sound {system : DesignSystem} {root : Text} {value : Option UtilityValue}
    {m : Option Argument} {negative : Bool} {nodes : List Css.Node} {term : UtilityTerm}
    (offered : Offered term root value m negative)
    (found : system.offer root value m negative = .matched nodes) : system.Declares term nodes := by
  obtain ⟨u, member, answer⟩ := Outcome.firstOf_matched found
  exact .functional offered (mem_functionals.mp (mem_offerOrder member))
    (FunctionalUtility.answer_eq_matched.mp answer)

theorem nodes_eq_some {o : Outcome} {nodes : List Css.Node} :
    o.nodes? = some nodes ↔ o = .matched nodes := by
  cases o <;> simp [Outcome.nodes?]

/-- The static utility that is found is one of exactly this name. -/
theorem staticNodes_sound {system : DesignSystem} {name : Text} {m : Option Argument} {negative : Bool}
    {nodes : List Css.Node} (found : system.staticNodes name m negative = some nodes) :
    negative = false ∧ (m = none ∧ (system.utilities.statics name).head? = some nodes ∨
      ∃ t, m = some (.named t) ∧ (system.utilities.statics (name ++ '/' :: t)).head? = some nodes) := by
  unfold staticNodes at found
  split at found
  · cases found
  · rename_i positive
    refine ⟨by simpa using positive, ?_⟩
    split at found
    · exact .inl ⟨rfl, found⟩
    · exact .inr ⟨_, rfl, found⟩
    · cases found

theorem resolveTerm_sound {system : DesignSystem} {term : UtilityTerm} {nodes : List Css.Node}
    (utility : ∀ name value m, term ≠ .property name value m) (found : system.resolveTerm term = some nodes) :
    system.Declares term nodes := by
  cases term with
  | static root negative =>
    rcases orElse_eq_some.mp found with static | ⟨-, offered⟩
    · obtain ⟨rfl, ⟨-, first⟩ | ⟨t, ⟨⟩, -⟩⟩ := staticNodes_sound static
      exact .static (.alone root) first
    · exact offer_sound (.static root negative) (nodes_eq_some.mp offered)
  | functional root value m negative =>
    rcases value with _ | (value | ⟨t, hint⟩)
    · exact offer_sound (.bare root m negative) (nodes_eq_some.mp found)
    · rcases orElse_eq_some.mp found with static | ⟨-, offered⟩
      · obtain ⟨rfl, ⟨rfl, first⟩ | ⟨t, rfl, first⟩⟩ := staticNodes_sound static
        · exact .static (.valued root value) first
        · exact .static (.modified root value t) first
      · obtain ⟨⟨r, v⟩, cut, answer⟩ := Outcome.firstOf_matched (nodes_eq_some.mp offered)
        exact offer_sound (.cut m negative (mem_splits.mp cut)) answer
    · exact offer_sound (.arbitrary root t hint m negative) (nodes_eq_some.mp found)
  | property name value m => exact absurd rfl (utility name value m)

/-- What is found for a static or functional candidate was declared for it. -/
theorem resolve_sound {system : DesignSystem} {c : Candidate} {nodes : List Css.Node}
    (utility : ∀ name value m, c.base ≠ .property name value m) (found : system.resolve c = some nodes) :
    ∃ declared, system.Declares c.base declared ∧
      nodes = if c.important then Css.markImportant declared else declared := by
  obtain ⟨declared, resolved, rfl⟩ := Option.map_eq_some_iff.mp found
  exact ⟨declared, resolveTerm_sound utility resolved, rfl⟩

theorem negative_length_declared :
    let u : FunctionalUtility :=
      { emit := fun v _ => [Css.declare "margin" v], types := [.length], supportsNegative := true }
    let system : DesignSystem := ⟨none, .empty, ⟨[("m", .functional u)]⟩, .empty⟩
    let c : Candidate := ⟨.functional "m" (some (.arbitrary "1px" none)) none true, [], true⟩
    ∃ declared, system.Declares c.base declared ∧
      Css.markImportant [Css.declare "margin" "calc(1px * -1)"] = Css.markImportant declared := by
  intro u system c
  exact @resolve_sound system c _ (by simp [c]) (by decide +kernel)

end DesignSystem

end AtomicCss
