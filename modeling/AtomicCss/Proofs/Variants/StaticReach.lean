import AtomicCss.Proofs.Candidate.Named
import AtomicCss.Variants

/-! Which registered static variants a class can use. Whatever a registered name is
read as, with a value or as a compound, its own steps are found. But registration
takes names that the grammar does not read. -/
namespace AtomicCss.Variants
open Text Variant

/-- The names that are read as variants: compound roots in front, a dash behind
each, and then a name that begins as a root does and does not end with a dash. -/
inductive Spellable : Text → Prop
  | simple {t : Text} (shape : isRoot t = true) (simple : Uncompounded t)
    (last : t.getLast? ≠ some '-') : Spellable t
  | compound {root inner : Text} (known : root ∈ compoundRoots) (inside : Spellable inner) :
    Spellable (root ++ '-' :: inner)

/-- Behind a whole compound root and its dash there is an inner variant, unless the dash comes last. -/
theorem splitCompound_eq_none {t : Text} (last : t.getLast? ≠ some '-') (bracketless : '[' ∉ t) :
    splitCompound? t = none ↔ Uncompounded t := by
  constructor
  · rintro absent compound known ⟨behind, rfl⟩
    have some_left : behind ≠ [] := by
      rintro rfl
      simp at last
    have other : behind.head? ≠ some '[' := by
      intro head
      apply bracketless
      simp [List.mem_of_mem_head? head]
    have found := splitCompound_eq_some.mpr
      ⟨known, List.append_assoc compound ['-'] behind, some_left, other⟩
    rw [absent] at found
    cases found
  · intro simple
    cases found : splitCompound? t with
    | none => rfl
    | some cut =>
      obtain ⟨root, inner⟩ := cut
      obtain ⟨known, rfl, -⟩ := splitCompound_eq_some.mp found
      exact absurd ⟨inner, by simp⟩ (simple root known)

theorem characters_of_checkVariantName {name : Text} (accepted : checkVariantName name = .ok ()) :
    NameLike name ∧ '.' ∉ name ∧ '%' ∉ name := by
  have valid : isVariantName name = true := by
    unfold checkVariantName at accepted
    split at accepted
    · assumption
    · cases accepted
  have known {c : Char} (member : c ∈ name) : c.isAlphanum = true ∨ c = '@' ∨ c = '_' ∨ c = '-' := by
    cases name with
    | nil => cases member
    | cons d rest =>
      simp only [isVariantName, Bool.and_eq_true, Bool.or_eq_true, beq_iff_eq, List.all_eq_true] at valid
      rcases List.mem_cons.mp member with rfl | member
      · rcases valid.1 with (lower | digit) | sign
        · exact .inl (isAlphanum_of_lower lower)
        · exact .inl (isAlphanum_iff.mpr (.inr digit))
        · exact .inr (.inl sign)
      · rcases valid.2 c member with (letter | low) | dash
        · exact .inl letter
        · exact .inr (.inr (.inl low))
        · exact .inr (.inr (.inr dash))
  refine ⟨fun c member => ?_, fun dot => ?_, fun percent => ?_⟩
  · rcases known member with letter | rfl | rfl | rfl
    · simp [isNameChar, letter]
    all_goals rfl
  · exact absurd (known dot) (by decide)
  · exact absurd (known percent) (by decide)

/-- What is read from a text without a point, a percent sign and a bracket is spellable. -/
theorem spellable_of_spelt {t : Text} {v : Variant} {m : Option Argument} (spelt : MainSpelt t m v)
    (unmodified : m = none) (bracketless : '[' ∉ t) (pointless : '.' ∉ t) (whole : '%' ∉ t) :
    Spellable t := by
  induction spelt with
  | static shape undashed =>
    refine .simple shape (fun compound _ ⟨behind, same⟩ => ?_) fun last => ?_
    · apply undashed
      simp [← same]
    · exact undashed (List.mem_of_getLast? last)
  | bare => cases unmodified
  | @named root value m shape named simple =>
    obtain ⟨-, some_left, undashed⟩ := nameLike_of_isNamedValue named
    have last : (root ++ '-' :: value).getLast? ≠ some '-' := by
      intro ends
      rw [List.append_cons, List.getLast?_append_of_ne_nil _ some_left] at ends
      exact undashed (List.mem_of_getLast? ends)
    refine .simple ((isRoot_append (nameLike_of_isRoot shape).2.1).mpr ⟨shape, fun c member => ?_⟩)
      ((splitCompound_eq_none last bracketless).mp simple) last
    rcases List.mem_cons.mp member with rfl | member
    · rfl
    · simp only [isNamedValue, Bool.and_eq_true, Bool.or_eq_true, beq_iff_eq, List.all_eq_true] at named
      rcases named.2 c member with ((letter | rfl) | rfl) | rfl
      · simp [letter]
      · exact absurd (by simp [member]) pointless
      · exact absurd (by simp [member]) whole
      · rfl
  | arbitrary => simp at bracketless
  | compound m known inner ih =>
    apply Spellable.compound known
    apply ih rfl <;> simp_all

theorem spelt_of_spellable {t : Text} (spellable : Spellable t) : ∃ v, MainSpelt t none v := by
  induction spellable with
  | @simple t shape simple last =>
    have bracketless : '[' ∉ t := (nameLike_of_isRoot shape).1.not_mem (by decide)
    cases cut : splitLast '-' t with
    | none => exact ⟨_, .static shape (splitLast_eq_none.mp cut)⟩
    | some parts =>
      obtain ⟨root, value⟩ := parts
      obtain ⟨rfl, undashed⟩ := splitLast_eq_some.mp cut
      have root_left : root ≠ [] := by
        rintro rfl
        exact (nameLike_of_isRoot shape).2.2 rfl
      have value_left : value ≠ [] := by
        rintro rfl
        simp at last
      obtain ⟨front, others⟩ := (isRoot_append root_left).mp shape
      have named : isNamedValue value = true := by
        simp only [isNamedValue, Bool.and_eq_true, Bool.not_eq_true', List.isEmpty_eq_false_iff,
          List.all_eq_true]
        refine ⟨value_left, fun c member => ?_⟩
        have other : c ≠ '-' := by
          rintro rfl
          exact undashed member
        have known := others c (by simp [member])
        simp only [Bool.or_eq_true, beq_iff_eq, other, or_false] at known
        rcases known with letter | rfl
        · simp [letter]
        · rfl
      exact ⟨_, .named none front named ((splitCompound_eq_none last bracketless).mpr simple)⟩
  | compound known _ ih =>
    obtain ⟨v, spelt⟩ := ih
    exact ⟨_, .compound none known spelt⟩

/-- A registered name has its own steps, whatever it is read as. -/
theorem steps_of_spelt {vs : Variants} {theme : Theme} {t : Text} {v : Variant} {steps : List Step}
    (spelt : MainSpelt t none v) (bracketless : '[' ∉ t)
    (registered : vs.statics.lookup t = some steps) : vs.steps theme v = some steps := by
  cases spelt with
  | static => simp [Variants.steps, registered]
  | named => simp [Variants.steps, staticSteps, registered]
  | arbitrary => simp at bracketless
  | @compound root inner v _ known spelt =>
    have inside : '[' ∉ inner := fun member => bracketless (by simp [member])
    obtain ⟨-, -, written⟩ := WellFormed.readMain spelt inside .none
    have printed : v.print = inner := by
      rw [spelt.print_eq, written, Argument.printModifier, List.append_nil]
    simp [Variants.steps, staticSteps, printed, registered]

/-- A text of name characters is read as a variant without a modifier, if it is read. -/
theorem parse_name {name : Text} {v : Variant} (characters : NameLike name) :
    Variant.parse? name = some v ↔ MainSpelt name none v := by
  constructor
  · intro read
    have slashless : '/' ∉ name := characters.not_mem (by decide)
    have bracketless : '[' ∉ name := characters.not_mem (by decide)
    cases Spelt.read characters.closed.balanced read with
    | main main modifier =>
      cases modifier with
      | none => simpa using main
      | named => simp at slashless
      | arbitrary => simp at slashless
    | selector => simp at bracketless
  · intro spelt
    simpa using (Spelt.main spelt .none).complete

/-- What may be registered later: static variants of other names, and anything else. -/
inductive Extends (name : Text) : Variants → Variants → Prop
  | same (vs : Variants) : Extends name vs vs
  | static {vs next later : Variants} {other : Text} {templates : List Text} (different : other ≠ name)
    (stored : vs.registerStatic other templates = .ok next) (more : Extends name next later) :
    Extends name vs later
  | functional {vs next later : Variants} {other : Text} {handler : VariantHandler}
    (stored : vs.registerFunctional other handler = .ok next) (more : Extends name next later) :
    Extends name vs later
  | compound {vs next later : Variants} {other : Text} {handler : CompoundHandler}
    (stored : vs.registerCompound other handler = .ok next) (more : Extends name next later) :
    Extends name vs later

section

variable {vs next : Variants} {name : Text}

/-- A registration is made if the name is accepted. -/
theorem checked_eq_ok {made : Variants} :
    (do checkVariantName name; return made : Except RegistrationError Variants) = .ok next ↔
      checkVariantName name = .ok () ∧ next = made := by
  cases checkVariantName name with
  | error e => exact iff_of_false nofun (by simp)
  | ok _ =>
    constructor
    · rintro ⟨⟩
      exact ⟨rfl, rfl⟩
    · rintro ⟨-, rfl⟩
      rfl

/-- A static variant keeps its steps through later registrations. -/
theorem Extends.lookup_eq {later : Variants} (further : Extends name vs later) :
    later.statics.lookup name = vs.statics.lookup name := by
  induction further with
  | same vs => rfl
  | @static vs next later other templates different stored more ih =>
    obtain ⟨-, rfl⟩ := checked_eq_ok.mp stored
    have miss : (name == other) = false := by simpa using Ne.symm different
    rw [ih, List.lookup_cons, miss]
  | functional stored more ih =>
    obtain ⟨-, rfl⟩ := checked_eq_ok.mp stored
    exact ih
  | compound stored more ih =>
    obtain ⟨-, rfl⟩ := checked_eq_ok.mp stored
    exact ih

end

/-- After the registration of a static variant its name stands for its steps wherever the name
is read, whatever else is registered. The name is read exactly if it is spellable. -/
theorem static_variant_reached_iff (vs : Variants) (theme : Theme) {name : Text} (templates : List Text)
    (accepted : checkVariantName name = .ok ()) :
    ∃ registered, vs.registerStatic name templates = .ok registered ∧
      ∀ later : Variants, Extends name registered later →
        (∀ v, Variant.parse? name = some v → later.steps theme v = some (templates.map Step.parse)) ∧
        ((∃ v, Variant.parse? name = some v) ↔ Spellable name) := by
  obtain ⟨characters, pointless, whole⟩ := characters_of_checkVariantName accepted
  have bracketless : '[' ∉ name := characters.not_mem (by decide)
  refine ⟨_, checked_eq_ok.mpr ⟨accepted, rfl⟩, fun later more => ?_⟩
  have kept := more.lookup_eq
  rw [List.lookup_cons_self] at kept
  simp only [parse_name characters]
  refine ⟨fun v spelt => steps_of_spelt spelt bracketless kept, ?_, spelt_of_spellable⟩
  rintro ⟨v, spelt⟩
  exact spellable_of_spelt spelt rfl bracketless pointless whole

theorem nested_static_reached :
    ∃ registered, empty.registerStatic "group-not-a-b" ["&:hover"] = .ok registered ∧
      ∃ v, Variant.parse? "group-not-a-b" = some v ∧
        registered.steps .empty v = some [Step.parse "&:hover"] := by
  obtain ⟨registered, stored, reached⟩ :=
    @static_variant_reached_iff empty .empty "group-not-a-b" ["&:hover"] rfl
  obtain ⟨steps, spelt⟩ := reached registered (.same registered)
  have simple : Spellable "a-b" := .simple (by decide) (by unfold Uncompounded; decide) (by decide)
  have spellable : Spellable ("group" ++ '-' :: ("not" ++ '-' :: "a-b")) :=
    .compound (by decide) (.compound (by decide) simple)
  obtain ⟨v, read⟩ := spelt.mpr spellable
  exact ⟨registered, stored, v, read, steps v read⟩

/-- A name that ends with a dash is registered, but no variant is read from it. -/
theorem dangling_variant_unread :
    ¬ ∀ (vs : Variants) (theme : Theme) (name : Text) (templates : List Text),
      checkVariantName name = .ok () → ∃ registered, vs.registerStatic name templates = .ok registered ∧
        ∃ v, Variant.parse? name = some v ∧
          registered.steps theme v = some (templates.map Step.parse) := by
  intro readable
  obtain ⟨registered, -, v, read, -⟩ := readable empty .empty "hover-" ["&:hover"] rfl
  have unread : Variant.parse? "hover-" = none := by decide +kernel
  rw [unread] at read
  cases read

end AtomicCss.Variants
