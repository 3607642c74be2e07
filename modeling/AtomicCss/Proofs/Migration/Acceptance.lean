import AtomicCss.DesignSystem.Builder
import AtomicCss.Proofs.Migration.Parts
import AtomicCss.Proofs.Migration.ThemeEdges

/-! Whether a migrated class is still a class. A variant is lost when its key ends
in a dash, and any text that ends in a backslash takes the bracket behind it out of
play. -/
namespace AtomicCss.Migration
open Text Variant Candidate Promoted DesignSystem

/-- No key ends in a dash. -/
def Dashless (variants : List Variant) : Prop := ∀ v ∈ variants, dashedKey v = false

instance (variants : List Variant) : Decidable (Dashless variants) :=
  inferInstanceAs (Decidable (∀ v ∈ variants, dashedKey v = false))

section

variable {lead : Option Text} {raw : Text} {c : Candidate} (spelt : Candidate.Spelt lead raw c)
  (named : ∀ v ∈ c.variants, ¬ IsSelector v)

include spelt named

/-- The pieces are closed when the texts in them are. -/
theorem closed_pieces_iff :
    (∀ p ∈ pieces c.variants, Closed p) ↔ ∀ v ∈ c.variants, ∀ t ∈ v.texts, Closed t := by
  have each {v : Variant} (member : v ∈ c.variants) :
      Closed (promoteVariant v).print ↔ ∀ t ∈ v.texts, Closed t := by
    obtain ⟨_, spelt⟩ := spelt.variant v member
    rw [(leaves_print spelt (named v member)).closed_iff, loose_eq_zero]
  constructor
  · exact fun closed v member => (each member).mp (closed _ (List.mem_map.mpr ⟨v, member, rfl⟩))
  · intro closed p member
    obtain ⟨v, inside, rfl⟩ := List.mem_map.mp member
    exact (each inside).mpr (closed v inside)

theorem read_pieces (closed : ∀ v ∈ c.variants, ∀ t ∈ v.texts, Closed t) :
    ((pieces c.variants).mapM Variant.parse?).isSome = true ↔ Dashless c.variants := by
  have each {v : Variant} (member : v ∈ c.variants) :
      (Variant.parse? (promoteVariant v).print).isSome = true ↔ dashedKey v = false := by
    obtain ⟨_, spelt⟩ := spelt.variant v member
    rw [parse_print spelt (named v member) (closed v member)]
    cases dashedKey v <;> simp
  rw [mapM_isSome]
  constructor
  · exact fun reads v member => (each member).mp (reads _ (List.mem_map.mpr ⟨v, member, rfl⟩))
  · intro dashless p member
    obtain ⟨v, inside, rfl⟩ := List.mem_map.mp member
    exact (each inside).mpr (dashless v inside)

end

theorem sound_migrateCalls {theme : Theme} {c : Candidate} (sound : c.base.Sound)
    (holds : ∀ t ∈ (migrateCalls theme c).base.texts, balanced t = true) :
    (migrateCalls theme c).base.Sound := by
  unfold migrateCalls at holds ⊢
  split at holds
  · rename_i root v hint m negative based
    rw [based] at sound
    cases sound with
    | arbitrary _ shape value modifier =>
      have edited := edited_migrateValue theme .declaration v
      refine .arbitrary negative shape ⟨⟨holds _ (by simp [UtilityTerm.texts]), ?_, ?_⟩, value.hinted,
        fun unhinted => edited.hintless (value.unhinted unhinted)⟩ modifier
      · exact edited.trimmed value.reading.trimmed
      · exact edited.ne_nil value.reading.some_left
  · rename_i name v m based
    rw [based] at sound
    cases sound with
    | property shape value modifier =>
      have edited := edited_migrateValue theme .declaration v
      exact .property shape ⟨holds _ (by simp [UtilityTerm.texts]), edited.trimmed value.trimmed,
        edited.ne_nil value.some_left⟩ modifier
  · exact sound

theorem shaped_migrateCalls {theme : Theme} {c : Candidate} (shaped : Shaped c) :
    Shaped (migrateCalls theme c) := by
  intro root v m negative based
  unfold migrateCalls at based
  split at based
  · rename_i before
    cases based
    exact shaped _ _ _ _ before
  · cases based
  · exact shaped _ _ _ _ based

theorem migrateCalls_kept (theme : Theme) (c : Candidate) :
    (migrateCalls theme c).variants = c.variants ∧ (migrateCalls theme c).important = c.important := by
  unfold migrateCalls
  split <;> exact ⟨rfl, rfl⟩

section

variable {raw : Text} {c d : Candidate} (same : d.variants = c.variants)
  (named : ∀ v ∈ c.variants, ¬ IsSelector v)

include same named

/-- The texts of variants are balanced, so they are closed unless one ends in a backslash. -/
theorem closed_iff_sealed {lead : Option Text} (spelt : Candidate.Spelt lead raw c) :
    (∀ p ∈ pieces d.variants, Closed p) ↔ ∀ v ∈ c.variants, ∀ t ∈ v.texts, ¬ Dangling t := by
  have each {v : Variant} (member : v ∈ c.variants) {t : Text} (inside : t ∈ v.texts) :
      Closed t ↔ ¬ Dangling t := by
    obtain ⟨_, spelt⟩ := spelt.variant v member
    exact closed_iff_not_dangling ((spelt.printable (named v member)).reading t inside).balanced
  rw [same, closed_pieces_iff spelt named]
  exact ⟨fun closed v member t inside => (each member inside).mp (closed v member t inside),
    fun sealed v member t inside => (each member inside).mpr (sealed v member t inside)⟩

theorem kept_iff {system : DesignSystem} (spelt : Candidate.Spelt system.lead raw c)
    (shaped : Shaped d) (apart : (∀ v ∈ c.variants, ∀ t ∈ v.texts, ¬ Dangling t) ∨
      ∃ n, Leaves n (d.alone.print none)) :
    Kept system.lead d (system.printCandidate (promote system d)) ↔
      (∀ v ∈ c.variants, ∀ t ∈ v.texts, ¬ Dangling t) ∧ Dashless c.variants ∧
        Kept none d.alone (d.alone.print none) := by
  have front : Front system.lead (pieces d.variants) := same ▸ front_of_spelt spelt
  have sealed := closed_iff_sealed same named spelt
  rw [kept_promote front rfl shaped (apart.imp_left sealed.mpr), ← sealed]
  refine and_congr_right fun closed => and_congr_left fun _ => ?_
  rw [same] at closed ⊢
  exact read_pieces spelt named ((closed_pieces_iff spelt named).mp closed)

theorem kept_iff_texts {system : DesignSystem} (spelt : Candidate.Spelt system.lead raw c)
    (shaped : Shaped d) (sound : d.base.Sound) :
    Kept system.lead d (system.printCandidate (promote system d)) ↔
      (∀ t ∈ d.texts, ¬ Dangling t) ∧ Dashless c.variants := by
  have leaves := leaves_alone sound.leaves_print
  have base : (∀ t ∈ d.base.texts, Closed t) ↔ ∀ t ∈ d.base.texts, ¬ Dangling t :=
    forall₂_congr fun t inside => closed_iff_not_dangling (sound.reading t inside).balanced
  have texts : (∀ t ∈ d.texts, ¬ Dangling t) ↔
      (∀ v ∈ c.variants, ∀ t ∈ v.texts, ¬ Dangling t) ∧ ∀ t ∈ d.base.texts, ¬ Dangling t := by
    rw [Candidate.texts, List.forall_mem_append, same]
    simp only [List.mem_flatMap, forall_exists_index, and_imp]
    exact and_congr_left fun _ => ⟨fun all v member t inside => all t v member inside,
      fun all t v member inside => all v member t inside⟩
  rw [kept_iff same named spelt shaped (.inr ⟨_, leaves⟩), kept_alone sound, base, texts]
  exact ⟨fun ⟨front, dashless, back⟩ => ⟨⟨front, back⟩, dashless⟩,
    fun ⟨⟨front, back⟩, dashless⟩ => ⟨front, dashless, back⟩⟩

end

/-- A class whose variants are no selectors is kept exactly when no text between
brackets ends in a backslash and no key ends in a dash. The same holds when its
theme calls are replaced, as long as the brackets of the value stay balanced;
where they do not, the utility must still be one by itself. -/
theorem migration_kept_iff (system : DesignSystem) {raw : Text} {c : Candidate}
    (read : system.parseCandidate raw = some c) (named : ∀ v ∈ c.variants, ¬ IsSelector v) :
    (Kept system.lead c (bareClass system raw) ↔
      (∀ t ∈ c.texts, ¬ Dangling t) ∧ Dashless c.variants) ∧
    ((∀ t ∈ (migrateCalls system.theme c).base.texts, balanced t = true) →
      (Kept system.lead c (migrateClass system raw) ↔
        (∀ t ∈ (migrateCalls system.theme c).texts, ¬ Dangling t) ∧ Dashless c.variants)) ∧
    ((∀ v ∈ c.variants, ∀ t ∈ v.texts, ¬ Dangling t) →
      (Kept system.lead c (migrateClass system raw) ↔ Dashless c.variants ∧
        Kept none c.alone ((migrateCalls system.theme c).alone.print none))) := by
  have spelt := Candidate.Spelt.read read
  have sound : c.base.Sound := by
    obtain ⟨⟨texts, base, last, -, -, based, -⟩, -⟩ := spelt
    exact based.sound
  have shaped := shaped_of_sound sound
  have shaped_migrated : Shaped (migrateCalls system.theme c) := shaped_migrateCalls shaped
  obtain ⟨variants, important⟩ := migrateCalls_kept system.theme c
  have bare : bareClass system raw = system.printCandidate (promote system c) := by
    simp [bareClass, read]
  have migrated : migrateClass system raw =
      system.printCandidate (promote system (migrateCalls system.theme c)) := by
    simp [migrateClass, read]
  have same (t : Text) : Kept system.lead (migrateCalls system.theme c) t ↔ Kept system.lead c t := by
    unfold Kept
    rw [variants, important]
  have same_alone (t : Text) : Kept none (migrateCalls system.theme c).alone t ↔ Kept none c.alone t := by
    unfold Kept alone
    rw [important]
  refine ⟨?_, fun holds => ?_, fun sealed => ?_⟩
  · rw [bare]
    exact kept_iff_texts rfl named spelt shaped sound
  · rw [migrated, ← same]
    exact kept_iff_texts variants named spelt shaped_migrated (sound_migrateCalls sound holds)
  · rw [migrated, ← same, ← same_alone, kept_iff variants named spelt shaped_migrated (.inl sealed)]
    exact and_iff_right sealed

theorem migration_keeps_data_attribute :
    let system := (Builder.bare Theme.empty).build
    let c : Candidate := ⟨.functional "w" (some (.arbitrary "theme(a)" none)) none false,
      [.functional "data" (some (.arbitrary "a-b")) none], true⟩
    Kept none c (bareClass system "data-[a-b]:w-[theme(a)]!") ∧
      Kept none c (migrateClass system "data-[a-b]:w-[theme(a)]!") := by
  intro system c
  have read : system.parseCandidate "data-[a-b]:w-[theme(a)]!" = some c := by decide +kernel
  have named : ∀ v ∈ c.variants, ¬ IsSelector v := by simp [c, IsSelector]
  obtain ⟨bare, migrated, apart⟩ := migration_kept_iff system read named
  have dashless : Dashless c.variants := by decide +kernel
  have sealed : ∀ v ∈ c.variants, ∀ t ∈ v.texts, ¬ Dangling t := by decide +kernel
  have alone : Kept none c.alone ((migrateCalls system.theme c).alone.print none) :=
    (apart sealed).mp ((migrated (by decide +kernel)).mpr ⟨by decide +kernel, dashless⟩) |>.2
  exact ⟨bare.mpr ⟨by decide +kernel, dashless⟩, (apart sealed).mpr ⟨dashless, alone⟩⟩

/-- The key of `data-[a-]` loses its brackets, and `data-a-` is no variant. -/
theorem migration_drops_dashed_key :
    ¬ ∀ (system : DesignSystem) (raw : Text) (c : Candidate), system.parseCandidate raw = some c →
      (∀ v ∈ c.variants, ¬ IsSelector v) →
        Kept system.lead c (bareClass system raw) ∧ Kept system.lead c (migrateClass system raw) := by
  intro kept
  obtain ⟨⟨c', read, -⟩, -⟩ := kept (Builder.bare Theme.empty).build "data-[a-]:flex"
    ⟨.static "flex" false, [.functional "data" (some (.arbitrary "a-")) none], false⟩
    (by decide +kernel) (by simp [IsSelector])
  have lost : parse? none (bareClass (Builder.bare Theme.empty).build "data-[a-]:flex") = none := by
    decide +kernel
  exact absurd (lost.symm.trans read) (by simp)

end Migration
end AtomicCss
