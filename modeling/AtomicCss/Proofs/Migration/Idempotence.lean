import AtomicCss.DesignSystem.Builder
import AtomicCss.Proofs.Migration.NamedValue
import AtomicCss.Proofs.Migration.Promotion
import AtomicCss.Proofs.Migration.ThemeCall

/-! Running the migration twice. Each promotion takes a pair of brackets away,
and nothing else in a run brings one back, so a class is left alone exactly when
no promotion applies and it is written in canonical form already. -/
namespace AtomicCss.Migration
open Text DesignSystem

/-- A promoted variant has fewer brackets. -/
theorem brackets_promoteVariant (v : Variant) :
    promoteVariant v = v ∨ brackets (promoteVariant v).print < brackets v.print := by
  fun_induction promoteVariant v with
  | case1 root m inner ih =>
    rcases ih with same | less
    · exact .inl (by rw [same])
    · right
      simp only [Variant.print, brackets, List.count_append, List.count_cons] at less ⊢
      omega
  | case2 root t =>
    cases found : bareVariantValue? root t with
    | none => exact .inl rfl
    | some key =>
      right
      have nothing := (key_of_bareVariantValue found).nameLike.count_eq
      simp [Variant.print, brackets]
      omega
  | case3 => exact .inl rfl

theorem brackets_withNamedValue {lead : Option Text} {c named : Candidate}
    (found : withNamedValue? c = some named) :
    brackets (named.print lead) < brackets (c.print lead) := by
  obtain ⟨root, t, m, negative, based, bare, rfl⟩ := withNamedValue_eq_some found
  have nothing : brackets t = 0 := List.count_eq_zero.mpr fun member =>
    ((bare_char bare).2 _ member).2.2.1 rfl
  have written := Arbitrary.count_printUnhinted t
  rw [Candidate.brackets_eq, Candidate.brackets_eq]
  simp [based, UtilityTerm.print_functional, UtilityTerm.printValue, UtilityTerm.ValueReading.written,
    brackets] at nothing ⊢
  omega

theorem brackets_promoteValue {system : DesignSystem} {c promoted : Candidate}
    (found : promoteValue? system c = some promoted) :
    brackets (system.printCandidate promoted) < brackets (system.printCandidate c) := by
  obtain ⟨named, value, read, -⟩ := promoteValue_eq_some found
  have less : brackets (named.print system.lead) < brackets (c.print system.lead) :=
    brackets_withNamedValue value
  have kept : brackets (promoted.print system.lead) = brackets (named.print system.lead) :=
    Candidate.brackets_print read
  exact kept ▸ less

/-- Nothing is left to promote. -/
def Unpromotable (system : DesignSystem) (c : Candidate) : Prop :=
  (∀ v ∈ c.variants, promoteVariant v = v) ∧ promoteValue? system c = none

theorem promote_of_unpromotable {system : DesignSystem} {c : Candidate}
    (left : Unpromotable system c) : promote system c = c := by
  have kept : c.variants.map promoteVariant = c.variants := by
    simpa using List.map_congr_left left.1
  simp [promote, kept, left.2]

theorem brackets_variants (variants : List Variant) :
    (∀ v ∈ variants, promoteVariant v = v) ∨
      brackets ((variants.map promoteVariant).map Variant.print).flatten <
        brackets (variants.map Variant.print).flatten := by
  induction variants with
  | nil => exact .inl (by simp)
  | cons v variants ih =>
    simp only [List.map_cons, List.flatten_cons, brackets_append, List.mem_cons, forall_eq_or_imp]
    rcases brackets_promoteVariant v with same | less <;> rcases ih with kept | fewer
    · exact .inl ⟨same, kept⟩
    · right
      rw [same]
      omega
    · have kept' : variants.map promoteVariant = variants := by
        simpa using List.map_congr_left kept
      right
      rw [kept']
      omega
    · right
      omega

/-- A run that promotes anything loses a bracket. -/
theorem brackets_promote (system : DesignSystem) (c : Candidate) :
    Unpromotable system c ∨
      brackets (system.printCandidate (promote system c)) < brackets (system.printCandidate c) := by
  have front : (∀ v ∈ c.variants, promoteVariant v = v) ∨
      brackets (system.printCandidate { c with variants := c.variants.map promoteVariant }) <
        brackets (system.printCandidate c) := by
    rcases brackets_variants c.variants with kept | fewer
    · exact .inl kept
    · right
      simp only [DesignSystem.printCandidate, Candidate.brackets_eq] at fewer ⊢
      omega
  cases found : promoteValue? system { c with variants := c.variants.map promoteVariant } with
  | none =>
    rcases front with kept | fewer
    · have same : c.variants.map promoteVariant = c.variants := by
        simpa using List.map_congr_left kept
      exact .inl ⟨kept, by rwa [same] at found⟩
    · exact .inr (by simpa [promote, found] using fewer)
  | some promoted =>
    right
    have less := brackets_promoteValue found
    have value : promote system c = promoted := by simp [promote, found]
    rw [value]
    rcases front with kept | fewer
    · have same : c.variants.map promoteVariant = c.variants := by
        simpa using List.map_congr_left kept
      rwa [same] at less
    · omega

theorem brackets_migrateCalls (lead : Option Text) (theme : Theme) (c : Candidate) :
    brackets ((migrateCalls theme c).print lead) ≤ brackets (c.print lead) := by
  rw [Candidate.brackets_eq, Candidate.brackets_eq]
  unfold migrateCalls
  split
  · rename_i root t hint m negative based
    have less := brackets_migrateValue theme .declaration t
    cases hint with
    | none =>
      have before := Arbitrary.count_printUnhinted t
      have after := Arbitrary.count_printUnhinted (migrateValue theme .declaration t)
      simp [based, UtilityTerm.print_functional, UtilityTerm.printValue, UtilityTerm.ValueReading.written,
        brackets] at less ⊢
      omega
    | some hint =>
      have before := Arbitrary.count_print t
      have after := Arbitrary.count_print (migrateValue theme .declaration t)
      simp [based, UtilityTerm.print_functional, UtilityTerm.printValue, UtilityTerm.ValueReading.written,
        brackets] at less ⊢
      omega
  · rename_i name value m based
    have less := brackets_migrateValue theme .declaration value
    have before := Arbitrary.count_print value
    have after := Arbitrary.count_print (migrateValue theme .declaration value)
    simp [based, UtilityTerm.print, UtilityTerm.negative, brackets] at less ⊢
    omega
  · exact Nat.le_refl _

/-- Nothing is left to promote, and this is the canonical text. -/
def Settled (system : DesignSystem) (c : Candidate) (t : Text) : Prop :=
  system.printCandidate c = t ∧ Unpromotable system c

private theorem promoted_iff_settled {system : DesignSystem} {c d : Candidate} {t : Text}
    (read : system.parseCandidate t = some d)
    (fewer : brackets (system.printCandidate c) ≤ brackets (system.printCandidate d)) :
    system.printCandidate (promote system c) = t ↔ Settled system c t := by
  constructor
  · intro same
    have kept : brackets (system.printCandidate d) = brackets t := Candidate.brackets_print read
    rcases brackets_promote system c with left | less
    · exact ⟨by rwa [promote_of_unpromotable left] at same, left⟩
    · rw [same] at less
      omega
  · rintro ⟨same, left⟩
    rw [promote_of_unpromotable left, same]

/-- A class stays as it is exactly when it is settled or no class of the system. -/
theorem bareClass_eq_self_iff (system : DesignSystem) (t : Text) :
    bareClass system t = t ↔ ∀ c, system.parseCandidate t = some c → Settled system c t := by
  unfold bareClass
  cases read : system.parseCandidate t with
  | none => simp
  | some c => simpa using promoted_iff_settled read (Nat.le_refl _)

theorem migrateClass_eq_self_iff (system : DesignSystem) (t : Text) :
    migrateClass system t = t ↔ ∀ c, system.parseCandidate t = some c →
      Settled system (migrateCalls system.theme c) t := by
  unfold migrateClass
  cases read : system.parseCandidate t with
  | none => simp
  | some c =>
    simpa using promoted_iff_settled read (brackets_migrateCalls system.lead system.theme c)

/-- A second run changes nothing exactly when what the first one wrote is no
class any more, or is settled: it is in canonical form, and nothing in it that
the first run could not promote has become promotable. -/
theorem second_run_unchanged_iff (system : DesignSystem) (raw : Text) :
    (bareClass system (bareClass system raw) = bareClass system raw ↔
      ∀ c, system.parseCandidate (bareClass system raw) = some c →
        Settled system c (bareClass system raw)) ∧
    (migrateClass system (migrateClass system raw) = migrateClass system raw ↔
      ∀ c, system.parseCandidate (migrateClass system raw) = some c →
        Settled system (migrateCalls system.theme c) (migrateClass system raw)) :=
  ⟨bareClass_eq_self_iff system _, migrateClass_eq_self_iff system _⟩

/-- The spaces of `data-[a_-_b]` hide that `a-b` is the key of an attribute
until they are gone, so the second run promotes what the first one did not. -/
theorem second_run_promotes_more :
    ¬ ∀ (system : DesignSystem) (raw : Text),
      bareClass system (bareClass system raw) = bareClass system raw ∧
        migrateClass system (migrateClass system raw) = migrateClass system raw := by
  intro unchanged
  let system := (Builder.bare Theme.empty).build
  let c : Candidate := ⟨.static "flex" false, [.functional "data" (some (.arbitrary "a - b")) none], false⟩
  have same := (unchanged system "data-[a_-_b]:flex").1
  have printed : Arbitrary.print "a - b" = "a-b" := by
    rw [Arbitrary.print, Value.compactText_eq_compact]
    decide +kernel
  have first : bareClass system "data-[a_-_b]:flex" = "data-[a-b]:flex" := by
    have read : system.parseCandidate "data-[a_-_b]:flex" = some c := by decide +kernel
    have kept : promote system c = c := by decide +kernel
    rw [bareClass, read]
    simp only [kept, c, DesignSystem.printCandidate, Candidate.print, List.map_cons, Variant.print, printed]
    decide +kernel
  have second : bareClass system "data-[a-b]:flex" = "data-a-b:flex" := by decide +kernel
  rw [first, second] at same
  exact absurd same (by decide)

end AtomicCss.Migration
