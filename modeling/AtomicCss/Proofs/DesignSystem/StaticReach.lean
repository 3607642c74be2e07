import AtomicCss.Proofs.Candidate.Named
import AtomicCss.Proofs.DesignSystem.Soundness

/-! Which static utilities a class text reaches. Registration takes more names than
the grammar can read, and of the names that are read, one with a modifier and no
value is not looked up among the static utilities. -/
namespace AtomicCss
open Text

/-- Nothing in the text stands for a variant, a mark, a sign or a bracket. -/
structure Unadorned (t : Text) : Prop where
  colonless : ':' ∉ t
  unmarked : '!' ∉ t
  bracketless : '[' ∉ t
  unsigned : t.head? ≠ some '-'

theorem unadorned_of_checkUtilityName {name : Text} (accepted : checkUtilityName name = .ok ()) :
    Unadorned name := by
  have valid : isUtilityName name = true := by
    unfold checkUtilityName at accepted
    split at accepted
    · assumption
    · cases accepted
  cases name with
  | nil => cases valid
  | cons c rest =>
    simp only [isUtilityName, Bool.and_eq_true, List.all_eq_true] at valid
    obtain ⟨lower, others⟩ := valid
    have absent {d : Char} (first : d.isLower = false) (later : (d.isAlphanum || d == '/' || d == '%' ||
        d == '.' || d == '_' || d == '-') = false) : d ∉ c :: rest := by
      intro member
      rcases List.mem_cons.mp member with rfl | member
      · rw [lower] at first
        cases first
      · rw [others d member] at later
        cases later
    refine ⟨absent (by decide) (by decide), absent (by decide) (by decide),
      absent (by decide) (by decide), ?_⟩
    rintro ⟨⟩
    cases lower

/-- Such a text is read as one utility without variants, if it is read. -/
theorem Candidate.read_unadorned {t : Text} {c : Candidate} (unadorned : Unadorned t)
    (read : parse? none t = some c) :
    ∃ u : UtilityTerm, c = ⟨u, [], false⟩ ∧ u.WellFormed ∧ u.negative = false ∧ u.print = t := by
  obtain ⟨u, variants, important⟩ := c
  obtain ⟨⟨texts, base, last, whole, each, based, marked⟩, -⟩ := parse_eq_some.mp read
  have alone : texts = [] := by
    cases texts with
    | nil => rfl
    | cons a texts =>
      refine absurd ?_ unadorned.colonless
      rw [whole, leadTexts, List.nil_append, List.cons_append, joinWith_concat]
      simp
  subst alone
  obtain rfl : t = last := by simpa [leadTexts, joinWith, List.intercalate] using whole
  obtain rfl : variants = [] := List.forall₂_nil_left_iff.mp each
  cases important with
  | true =>
    refine absurd ?_ unadorned.unmarked
    rcases (by simpa [Marked] using marked : t = base ++ ['!'] ∨ t = '!' :: base) with rfl | rfl
    · simp
    · simp
  | false =>
    obtain rfl : t = base := by simpa [Marked] using marked
    obtain ⟨formed, printed⟩ := UtilityTerm.WellFormed.read based unadorned.bracketless
    refine ⟨u, rfl, formed, ?_, printed⟩
    cases sign : u.negative with
    | false => rfl
    | true =>
      refine absurd ?_ unadorned.unsigned
      rw [← printed, UtilityTerm.print.eq_def, sign]
      rfl

theorem UtilityTerm.WellFormed.parse_print {u : UtilityTerm} (formed : u.WellFormed) :
    Candidate.parse? none u.print = some ⟨u, [], false⟩ := by
  have class_formed : Candidate.WellFormed ⟨u, [], false⟩ := ⟨by simp, formed⟩
  have printed : u.print = Candidate.print none ⟨u, [], false⟩ := by
    simp [Candidate.print, joinWith, List.intercalate]
  exact (class_formed.parse (by simp [Candidate.leadTexts]) (.inl printed)).2

namespace DesignSystem

/-- The names that are read and looked up as they are: one without a dash, one with
a value behind its last dash, and one of these with a modifier behind the value. -/
inductive Reachable : Text → Prop
  | alone {root : Text} (shape : UtilityTerm.isRoot root = true) (whole : '-' ∉ root) : Reachable root
  | valued {root value : Text} (shape : UtilityTerm.isRoot root = true)
    (named : isNamedValue value = true) : Reachable (root ++ '-' :: value)
  | modified {root value m : Text} (shape : UtilityTerm.isRoot root = true)
    (named : isNamedValue value = true) (modifier : isNamedModifier m = true) :
    Reachable (root ++ '-' :: value ++ '/' :: m)

theorem StaticName.print_eq {u : UtilityTerm} {name : Text} (named : StaticName u name) :
    u.print = name := by
  cases named <;>
    simp [UtilityTerm.print, UtilityTerm.negative, Argument.printModifier]

theorem StaticName.resolveTerm {system : DesignSystem} {u : UtilityTerm} {name : Text}
    {nodes : List Css.Node} (named : StaticName u name)
    (first : (system.utilities.statics name).head? = some nodes) :
    system.resolveTerm u = some nodes := by
  cases named <;> simp_all [DesignSystem.resolveTerm, staticNodes]

theorem print_bare (root m : Text) :
    (UtilityTerm.functional root none (some (.named m)) false).print = root ++ '/' :: m := by
  simp [UtilityTerm.print, UtilityTerm.negative, Argument.printModifier]

/-- A utility of names is looked up under its own text, or it has a modifier and no value. -/
theorem static_or_bare {u : UtilityTerm} (formed : u.WellFormed) (positive : u.negative = false) :
    StaticName u u.print ∨ ∃ root m, u = .functional root none (some (.named m)) false ∧
      UtilityTerm.isRoot root = true ∧ '-' ∉ root ∧ isNamedModifier m = true := by
  cases formed with
  | static negative shape whole =>
    obtain rfl : negative = false := positive
    exact .inl (.alone _)
  | bare negative shape whole named =>
    obtain rfl : negative = false := positive
    exact .inr ⟨_, _, rfl, shape, whole, named⟩
  | @valued root value _ negative shape named modifier =>
    obtain rfl : negative = false := positive
    left
    cases modifier with
    | none =>
      have static := StaticName.valued root value
      rwa [static.print_eq]
    | @named m simple =>
      have static := StaticName.modified root value m
      rwa [static.print_eq]

theorem reachable_iff {name : Text} :
    Reachable name ↔ ∃ u : UtilityTerm, u.WellFormed ∧ StaticName u name := by
  constructor
  · rintro (⟨shape, whole⟩ | ⟨shape, named⟩ | ⟨shape, named, modifier⟩)
    · exact ⟨_, .static false shape whole, .alone _⟩
    · exact ⟨_, .valued false shape named .none, .valued _ _⟩
    · exact ⟨_, .valued false shape named (.named modifier), .modified _ _ _⟩
  · rintro ⟨u, formed, named⟩
    cases named with
    | alone root =>
      cases formed with
      | static _ shape whole => exact .alone shape whole
    | valued root value =>
      cases formed with
      | valued _ shape named _ => exact .valued shape named
    | modified root value m =>
      cases formed with
      | valued _ shape named modifier =>
        cases modifier with
        | named simple => exact .modified shape named simple

/-- The first static utility of a name is what the name stands for as a class exactly
if the name is reachable. A root without a dash that has a modifier is offered to
the functional utilities of the root only. -/
theorem static_utility_reached_iff (system : DesignSystem) {name : Text} {nodes : List Css.Node}
    (unprefixed : system.lead = none) (accepted : checkUtilityName name = .ok ())
    (first : (system.utilities.statics name).head? = some nodes) :
    (∃ c, system.parseCandidate name = some c ∧ system.resolve c = some nodes) ↔
      Reachable name ∨ ∃ root m, name = root ++ '/' :: m ∧ UtilityTerm.isRoot root = true ∧
        '-' ∉ root ∧ isNamedModifier m = true ∧
          (system.offer root none (some (.named m)) false).nodes? = some nodes := by
  simp only [parseCandidate, unprefixed]
  constructor
  · rintro ⟨c, read, found⟩
    obtain ⟨u, rfl, formed, positive, printed⟩ :=
      Candidate.read_unadorned (unadorned_of_checkUtilityName accepted) read
    have resolved : system.resolveTerm u = some nodes := by simpa [resolve] using found
    rcases static_or_bare formed positive with named | ⟨root, m, rfl, shape, whole, named⟩
    · rw [printed] at named
      exact .inl (reachable_iff.mpr ⟨u, formed, named⟩)
    · rw [print_bare] at printed
      exact .inr ⟨root, m, printed.symm, shape, whole, named, resolved⟩
  · rintro (reach | ⟨root, m, rfl, shape, whole, named, offered⟩)
    · obtain ⟨u, formed, named⟩ := reachable_iff.mp reach
      refine ⟨⟨u, [], false⟩, ?_, ?_⟩
      · rw [← named.print_eq]
        exact formed.parse_print
      · simpa [resolve] using named.resolveTerm first
    · have formed : UtilityTerm.WellFormed (.functional root none (some (.named m)) false) :=
        .bare false shape whole named
      refine ⟨⟨.functional root none (some (.named m)) false, [], false⟩, ?_, ?_⟩
      · rw [← print_bare]
        exact formed.parse_print
      · simpa [resolve, DesignSystem.resolveTerm] using offered

theorem fraction_reached :
    let nodes := [Css.declare "width" "50%"]
    let system : DesignSystem := ⟨none, .empty, ⟨[("w-1/2", .static nodes)]⟩, .empty⟩
    ∃ c, system.parseCandidate "w-1/2" = some c ∧ system.resolve c = some nodes := by
  intro nodes system
  have reach : Reachable ("w" ++ '-' :: "1" ++ '/' :: "2") :=
    .modified (by decide) (by decide) (by decide)
  exact (static_utility_reached_iff system rfl rfl rfl).mpr (.inl reach)

/-- A name that ends with a dash is registered, but no class is read from it. -/
theorem dangling_utility_unread :
    ¬ ∀ (system : DesignSystem) (name : Text) (nodes : List Css.Node), system.lead = none →
      checkUtilityName name = .ok () → (system.utilities.statics name).head? = some nodes →
        ∃ c, system.parseCandidate name = some c ∧ system.resolve c = some nodes := by
  intro readable
  let system : DesignSystem :=
    ⟨none, .empty, ⟨[("flex-", .static [Css.declare "display" "flex"])]⟩, .empty⟩
  obtain ⟨c, read, -⟩ := readable system "flex-" _ rfl rfl rfl
  have unread : system.parseCandidate "flex-" = none := by decide +kernel
  rw [unread] at read
  cases read

end DesignSystem

end AtomicCss
