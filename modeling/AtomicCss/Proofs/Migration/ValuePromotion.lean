import AtomicCss.Proofs.Candidate.Named
import AtomicCss.Proofs.Migration.Parts

/-! What a promoted value stands for. The name that was tried is the one that is written:
it is read back as the candidate that was compared with the original, so what the
user reads has the nodes of what the user wrote. -/
namespace AtomicCss.Migration
open Text Candidate DesignSystem

/-- A value is promoted only where the name stands for the same nodes. -/
theorem resolve_promoted {system : DesignSystem} {c p : Candidate}
    (found : promoteValue? system c = some p) :
    ∃ nodes, system.resolve c = some nodes ∧ system.resolve p = some nodes := by
  obtain ⟨named, -, found⟩ := Option.bind_eq_some_iff.mp found
  obtain ⟨again, -, found⟩ := Option.bind_eq_some_iff.mp found
  split at found
  · obtain ⟨nodes, before, found⟩ := Option.bind_eq_some_iff.mp found
    split at found
    · rename_i after
      cases found
      exact ⟨nodes, before, after⟩
    · cases found
  · cases found

/-- The sign of a utility is the one that it is written with. -/
theorem negative_of_print {root t rest : Text} {negative : Bool} {u : UtilityTerm}
    (formed : u.WellFormed) (shape : UtilityTerm.isRoot root = true)
    (written : u.print = namedMain root t negative ++ rest) : u.negative = negative := by
  -- A root begins with a letter, so a dash in front is the sign.
  have letter {root : Text} (shape : UtilityTerm.isRoot root = true) (behind : Text) :
      (root ++ behind).head? ≠ some '-' := by
    obtain ⟨-, some_left, other⟩ := UtilityTerm.nameLike_of_isRoot shape
    rwa [List.head?_append_of_ne_nil _ some_left]
  have signed : (namedMain root t negative ++ rest).head? = some '-' ↔ negative = true := by
    cases negative with
    | true => simp [namedMain]
    | false => simpa [namedMain] using letter shape ('-' :: t ++ rest)
  have first : u.print.head? = some '-' ↔ u.negative = true := by
    cases formed with
    | static negative shape =>
      cases negative with
      | true => simp [UtilityTerm.print, UtilityTerm.negative]
      | false => simpa [UtilityTerm.print, UtilityTerm.negative] using letter shape []
    | bare negative shape =>
      rw [UtilityTerm.print_functional, List.append_assoc, List.append_assoc]
      cases negative with
      | true => simp [UtilityTerm.negative]
      | false => exact iff_of_false (letter shape _) Bool.false_ne_true
    | valued negative shape =>
      rw [UtilityTerm.print_functional, List.append_assoc, List.append_assoc]
      cases negative with
      | true => simp [UtilityTerm.negative]
      | false => exact iff_of_false (letter shape _) Bool.false_ne_true
  rw [Bool.eq_iff_iff, ← first, written, signed]

section

variable {lead : Option Text} {c : Candidate} (front : Front lead (pieces c.variants))

include front

/-- Where no value was promoted, a value between brackets is read as one. -/
theorem parse_unpromoted (sound : c.base.Sound) {c' : Candidate}
    (again : parse? lead ((promotedVariants c).print lead) = some c') : c'.base = c.base.reprint := by
  have closed := closed_of_balanced front ⟨_, leaves_alone sound.leaves_print⟩ (parse_iff.mp again).2.1
  rw [print_promoted] at again
  obtain ⟨_, _, -, -, alone⟩ := (parse_joined (solid_front front closed)).mp again
  have kept := parse_alone sound (closed_of_alone sound alone)
  exact congrArg Candidate.base (Option.some.inj (alone.symm.trans kept))

/-- A promoted value without a modifier between brackets is written as it was tried, so it is read
as the candidate that was compared. -/
theorem parse_promoted {system : DesignSystem} (lead_same : lead = system.lead) (shaped : Shaped c)
    {root t : Text} {m : Option Argument} {negative : Bool}
    (based : c.base = .functional root (some (.arbitrary t none)) m negative)
    (unbracketed : ∀ u, m ≠ some (.arbitrary u)) {p : Candidate}
    (found : promoteValue? system (promotedVariants c) = some p) :
    system.parseCandidate (system.printCandidate p) = some p ∧ p.base.negative = negative := by
  have parts := promotedParts front lead_same shaped found
  obtain ⟨root', t', m', negative', same, shape, bare, spelt⟩ := parts.base
  rw [based] at same
  cases same
  obtain ⟨-, behind, modifier⟩ := shaped _ _ _ _ based
  have named : NamedModifier m := by
    cases modifier with
    | none => exact .none
    | named known => exact .named known
    | arbitrary => exact absurd rfl (unbracketed _)
  have main_plain : '[' ∉ namedMain root t negative := (namedMain_plain shape bare).2
  have bracketless : '[' ∉ namedMain root t negative ++ Argument.printModifier m := by
    simp [main_plain, named.bracketless]
  obtain ⟨formed, written⟩ := UtilityTerm.WellFormed.read spelt bracketless
  obtain ⟨tried, value, read, printed, important⟩ := promoteValue_eq_some found
  obtain ⟨_, _, _, _, same, -, rfl⟩ := withNamedValue_eq_some value
  rw [show (promotedVariants c).base = c.base from rfl, based] at same
  cases same
  refine ⟨?_, negative_of_print formed shape written⟩
  have text : system.printCandidate p = system.printCandidate
      { promotedVariants c with base := .functional root (some (.named t)) m negative } := by
    simp only [DesignSystem.printCandidate, Candidate.print_eq, printed, mark, important, written, print_named]
  rw [text, read]

end

/-- Where a value without a hint, and without a modifier between brackets, comes back as a named
one, the class has the nodes that it had before, and it has some. The mark of importance, the
sign and the number of variants are those of the class as it was. -/
theorem promoted_value_same_nodes {system : DesignSystem} {raw : Text} {c c' : Candidate}
    (read : system.parseCandidate raw = some c) {root t : Text} {m : Option Argument} {negative : Bool}
    (based : c.base = .functional root (some (.arbitrary t none)) m negative)
    (unbracketed : ∀ u, m ≠ some (.arbitrary u))
    (again : system.parseCandidate (bareClass system raw) = some c')
    {root' name : Text} {m' : Option Argument} {negative' : Bool}
    (named : c'.base = .functional root' (some (.named name)) m' negative') :
    system.resolve c' = system.resolve c ∧ (system.resolve c').isSome = true ∧
      c'.important = c.important ∧ negative' = negative ∧ c'.variants.length = c.variants.length := by
  have spelt := Candidate.Spelt.read read
  have front := front_of_spelt spelt
  have sound : c.base.Sound := by
    obtain ⟨⟨texts, base, last, -, -, based, -⟩, -⟩ := spelt
    exact based.sound
  have written : bareClass system raw = system.printCandidate (promote system c) := by
    simp [bareClass, read]
  rw [written] at again
  rcases promote_cases system c with same | ⟨p, found, same⟩
  · rw [same] at again
    have kept := parse_unpromoted front sound again
    rw [named, based] at kept
    cases kept
  · rw [same] at again
    obtain ⟨kept, sign⟩ := parse_promoted front rfl (shaped_of_sound sound) based unbracketed found
    obtain rfl := Option.some.inj (kept.symm.trans again)
    obtain ⟨nodes, before, after⟩ := resolve_promoted found
    obtain ⟨-, -, -, printed, important⟩ := promoteValue_eq_some found
    have unchanged : system.resolve (promotedVariants c) = system.resolve c := rfl
    rw [named] at sign
    refine ⟨?_, by rw [after]; rfl, important, sign, ?_⟩
    · rw [after, ← unchanged, before]
    · simpa [promotedVariants] using congrArg List.length printed

/-- A ratio becomes a name and a modifier, which the utility reads as a fraction. -/
theorem ratio_same_nodes :
    let aspect : FunctionalUtility :=
      { emit := fun v _ => [Css.declare "aspect-ratio" v], types := [.ratio]
        fraction := fun a b => some (a ++ '/' :: b) }
    let system : DesignSystem :=
      ⟨none, .empty, ⟨[("aspect", .functional aspect)]⟩, ⟨[("open", [.selector "&[open]"])], [], []⟩⟩
    let c : Candidate :=
      ⟨.functional "aspect" (some (.arbitrary "12/34" none)) none false, [.static "open"], true⟩
    let c' : Candidate :=
      ⟨.functional "aspect" (some (.named "12")) (some (.named "34")) false, [.static "open"], true⟩
    system.parseCandidate "open:aspect-[12/34]!" = some c ∧
      system.parseCandidate (bareClass system "open:aspect-[12/34]!") = some c' ∧
        system.resolve c' = system.resolve c ∧ (system.resolve c').isSome = true := by
  intro aspect system c c'
  have read : system.parseCandidate "open:aspect-[12/34]!" = some c := by decide +kernel
  have again : system.parseCandidate (bareClass system "open:aspect-[12/34]!") = some c' := by
    decide +kernel
  obtain ⟨same, emitted, -⟩ := promoted_value_same_nodes read rfl (by simp) again rfl
  exact ⟨read, again, same, emitted⟩

end AtomicCss.Migration
