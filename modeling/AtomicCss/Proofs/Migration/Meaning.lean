import AtomicCss.DesignSystem.Builder
import AtomicCss.Proofs.Candidate.Canonical
import AtomicCss.Proofs.Migration.Parts

/-! What a promoted variant stands for. The class that is written is read with the
last dash of each key as the end of a root, which the registry of variants does not
see. So the meaning of a class is kept exactly when the registry gives a promoted
variant the steps of the variant before, and this is not so when something else is
registered under its name. -/
namespace AtomicCss.Migration
open Text Variant Candidate Promoted DesignSystem

/-- The registry looks at the whole name, wherever its root ends. -/
theorem steps_recut (vs : Variants) (theme : Theme) (v : Variant) :
    vs.steps theme (recut v) = vs.steps theme v := by
  have print_recut (v : Variant) : (recut v).print = v.print := by
    fun_induction recut v with
    | case1 root m inner ih => simp [Variant.print, ih]
    | case2 root t m r w cut => simp [Variant.print, (splitLast_eq_some.mp cut).1]
    | case3 => rfl
    | case4 => rfl
  fun_induction recut v with
  | case1 root m inner ih => simp only [Variants.steps, print_recut, ih]
  | case2 root t m r w cut => simp [Variants.steps, (splitLast_eq_some.mp cut).1]
  | case3 => rfl
  | case4 => rfl

/-- A promoted piece of a canonical class is closed, and it is read as the promoted
variant with its root ended at the last dash. -/
theorem read_promoted {v : Variant} (spelt : Variant.Spelt v.print v) (closed : Closed v.print) :
    Closed (promoteVariant v).print ∧ ∀ w, Variant.parse? (promoteVariant v).print = some w →
      w = recut (promoteVariant v) := by
  have texts := spelt.closed_texts closed
  by_cases named : IsSelector v
  · obtain ⟨selector, rfl⟩ := named
    refine ⟨closed, fun w read => ?_⟩
    rw [show promoteVariant (.arbitrary selector) = .arbitrary selector from rfl, spelt.complete] at read
    cases read
    rfl
  · refine ⟨(solid_print spelt named texts).closed, fun w read => ?_⟩
    have same : v.reprint = v := by
      have again := (spelt.reprint named texts).complete
      rw [spelt.complete] at again
      exact (Option.some.inj again).symm
    rw [parse_print spelt named texts, reprint_promote same] at read
    split at read
    · cases read
    · exact (Option.some.inj read).symm

/-- The variants of a promoted class are the promoted variants. -/
theorem variants_of_promoted (system : DesignSystem) {raw : Text} {c c' : Candidate}
    (read : system.parseCandidate raw = some c) (canonical : system.printCandidate c = raw)
    (again : system.parseCandidate (bareClass system raw) = some c') :
    c'.variants = c.variants.map fun v => recut (promoteVariant v) := by
  have spelt := Candidate.Spelt.read read
  have known := canonical_of_print read canonical
  have front := front_of_spelt spelt
  have sound : c.base.Sound := by
    obtain ⟨⟨_, _, _, -, -, based, -⟩, -⟩ := spelt
    exact based.sound
  have closed : ∀ p ∈ pieces c.variants, Closed p := by
    intro p member
    obtain ⟨v, inside, rfl⟩ := List.mem_map.mp member
    exact (read_promoted (known.variants v inside).1 (known.variants v inside).2).1
  -- Whether a value is promoted or not, the utility is read alone behind the same pieces.
  obtain ⟨d, variants, written, alone⟩ : ∃ d : Candidate, d.variants = c.variants ∧
      bareClass system raw = (promotedVariants d).print system.lead ∧
        Kept none d.alone (d.alone.print none) := by
    have bare : bareClass system raw = system.printCandidate (promote system c) := by
      simp [bareClass, read]
    rcases promote_cases system c with same | ⟨p, found, same⟩
    · exact ⟨c, rfl, by rw [bare, same]; rfl, (kept_alone sound).mpr known.base⟩
    · have parts := promotedParts front rfl (shaped_of_sound sound) found
      exact ⟨{ c with base := p.base }, rfl, by rw [bare, same]; exact parts.print_eq,
        (kept_alone (c := { c with base := p.base }) parts.sound).mpr parts.texts⟩
  have front' : Front system.lead (pieces d.variants) := variants ▸ front
  have again : parse? system.lead ((promotedVariants d).print system.lead) = some c' := written ▸ again
  rw [print_promoted] at again
  obtain ⟨first, back, parts, each, rest⟩ := (parse_joined (solid_front front' (variants ▸ closed))).mp again
  obtain rfl : back = [] := by
    obtain ⟨_, read, count, -⟩ := alone
    rw [rest] at read
    cases read
    exact List.eq_nil_of_length_eq_zero count
  rw [variants] at each
  have reads : (pieces c.variants).mapM Variant.parse? =
      some (c.variants.map fun v => recut (promoteVariant v)) := by
    rw [mapM_eq_some, pieces, List.forall₂_map_left_iff, List.forall₂_map_right_iff, List.forall₂_same]
    intro v member
    have some_read := mapM_isSome.mp (Option.isSome_of_eq_some each) _ (List.mem_map_of_mem member)
    obtain ⟨w, read⟩ := Option.isSome_iff_exists.mp some_read
    obtain ⟨spelt, closed⟩ := known.variants v member
    rw [read, (read_promoted spelt closed).2 w read]
  rw [parts, List.append_nil]
  exact Option.some.inj (each.symm.trans reads)

/-- The same test of an attribute of accessibility, with its value in quotes or not. -/
inductive SameTest : Text → Text → Prop
  | nil : SameTest [] []
  | cons (c : Char) {a b : Text} (rest : SameTest a b) : SameTest (c :: a) (c :: b)
  | quoted {key a b : Text} (shape : isAttributeKey key = true) (rest : SameTest a b) :
    SameTest ("[aria-" ++ key ++ "=\"true\"]" ++ a) ("[aria-" ++ key ++ "=true]" ++ b)
  | bare {key a b : Text} (shape : isAttributeKey key = true) (rest : SameTest a b) :
    SameTest ("[aria-" ++ key ++ "=true]" ++ a) ("[aria-" ++ key ++ "=\"true\"]" ++ b)

theorem SameTest.refl (t : Text) : SameTest t t := by
  induction t with
  | nil => exact .nil
  | cons c t ih => exact .cons c ih

/-- The same step, up to the quotes of such a test. -/
inductive SameStep : Step → Step → Prop
  | selector {a b : Text} (same : SameTest a b) : SameStep (.selector a) (.selector b)
  | atRule (header : AtRule) : SameStep (.atRule header) (.atRule header)

/-- Both variants are known, and their steps are the same. -/
def SameSteps (a b : Option (List Step)) : Prop :=
  ∃ s t, a = some s ∧ b = some t ∧ List.Forall₂ SameStep s t

/-- Nothing else answers to the name of a key. -/
structure Unshadowed (vs : Variants) (theme : Theme) (root key : Text) : Prop where
  static : vs.statics.lookup (root ++ '-' :: key) = none
  functional : ∀ r w, root ++ '-' :: key = r ++ '-' :: w → r ≠ root →
    vs.functionalSteps theme r (some (.named w)) none = none

theorem steps_of_unshadowed {vs : Variants} {theme : Theme} {root key : Text}
    (free : Unshadowed vs theme root key) :
    vs.steps theme (.functional root (some (.named key)) none) =
      vs.functionalSteps theme root (some (.named key)) none := by
  have static : vs.staticSteps (root ++ '-' :: key) none = none := free.static
  have only {r w : Text} {steps : List Step} (cut : (r, w) ∈ splits '-' (root ++ '-' :: key))
      (answer : vs.functionalSteps theme r (some (.named w)) none = some steps) :
      vs.functionalSteps theme root (some (.named key)) none = some steps := by
    have whole := mem_splits.mp cut
    by_cases same : r = root
    · subst same
      obtain ⟨-, rfl⟩ := List.cons.inj (List.append_cancel_left whole)
      exact answer
    · rw [free.functional r w whole same] at answer
      cases answer
  have named : vs.steps theme (.functional root (some (.named key)) none) =
      vs.namedSteps theme (root ++ '-' :: key) none := by
    simp [Variants.steps, static]
  rw [named, Variants.namedSteps]
  cases answer : vs.functionalSteps theme root (some (.named key)) none with
  | none =>
    rw [List.findSome?_eq_none_iff]
    rintro ⟨r, w⟩ cut
    refine Option.eq_none_iff_forall_not_mem.mpr fun steps found => ?_
    rw [only cut found] at answer
    cases answer
  | some steps =>
    have found : (vs.namedSteps theme (root ++ '-' :: key) none).isSome = true :=
      List.findSome?_isSome_iff.mpr ⟨(root, key), mem_splits.mpr rfl,
        by simpa using Option.isSome_of_eq_some answer⟩
    obtain ⟨steps', found⟩ := Option.isSome_iff_exists.mp found
    rw [Variants.namedSteps] at found
    obtain ⟨⟨r, w⟩, cut, given⟩ := List.exists_of_findSome?_eq_some found
    rw [found, ← answer, only cut given]

/-- The names that promotion rewrites have the standard handlers. -/
structure StandardHandlers (vs : Variants) : Prop where
  data : vs.functionals.lookup "data".toList = some Standard.data
  aria : vs.functionals.lookup "aria".toList = some Standard.aria
  supports : vs.functionals.lookup "supports".toList = some Standard.supports

private theorem sameTest_eq {a b : Text} (same : SameTest a b) (no_test : '[' ∉ a) : a = b := by
  induction same with
  | nil => rfl
  | cons c rest ih => rw [ih fun inside => no_test (List.mem_cons_of_mem c inside)]
  | quoted => exact absurd (by simp) no_test
  | bare => exact absurd (by simp) no_test

private theorem absent_of_key {c : Char} {key : Text} (shape : isAttributeKey key = true)
    (other : (c.isAlphanum || c == '-') = false) : c ∉ key := by
  intro inside
  rw [List.all_eq_true.mp (Bool.and_eq_true_iff.mp shape).2 c inside] at other
  cases other

/-- The standard test for a key is the test between the brackets only if its value
has one pair of quotes or none. -/
theorem sameTest_aria_iff {key t : Text} (found : trueKey? t = some key) :
    SameTest ("&[aria-" ++ key ++ "=\"true\"]") ("&[aria-" ++ t ++ "]") ↔
      t = key ++ "=true" ∨ t = key ++ "=\"true\"" := by
  obtain ⟨shape, -⟩ := key_of_trueKey found
  have no_bracket : '[' ∉ key := absent_of_key shape (by decide)
  have cut {other a b : Text} (other_shape : isAttributeKey other = true)
      (same : '[' :: ("aria-".toList ++ (other ++ '=' :: a)) =
        '[' :: ("aria-".toList ++ (key ++ '=' :: b))) : other = key ∧ a = b :=
    first_unique (List.append_cancel_left (List.cons.inj same).2)
      (absent_of_key other_shape (by decide)) (absent_of_key shape (by decide))
  constructor
  · intro same
    have whole : SameTest ('&' :: '[' :: ("aria-".toList ++ (key ++ '=' :: "\"true\"]".toList)))
        ('&' :: '[' :: ("aria-".toList ++ (t ++ "]".toList))) := by simpa using same
    obtain - | ⟨_, inner⟩ := whole
    generalize left : '[' :: ("aria-".toList ++ (key ++ '=' :: "\"true\"]".toList)) = a at inner
    generalize right : '[' :: ("aria-".toList ++ (t ++ "]".toList)) = b at inner
    cases inner with
    | nil => cases left
    | cons c rest =>
      -- No other test begins inside of this one.
      obtain ⟨-, rfl⟩ := List.cons.inj left
      obtain ⟨-, rfl⟩ := List.cons.inj right
      have eq := sameTest_eq rest (by simp [no_bracket])
      have whole : t ++ "]".toList = key ++ "=\"true\"".toList ++ "]".toList := by simpa using eq.symm
      exact .inr (List.append_cancel_right whole)
    | quoted other rest =>
      rename_i key' a' b'
      obtain ⟨rfl, behind⟩ := cut other (b := "\"true\"]".toList) (a := "\"true\"]".toList ++ a')
        (by simpa using left.symm)
      obtain rfl : a' = [] := by simpa using behind
      cases rest
      have whole : t ++ "]".toList = key' ++ "=true".toList ++ "]".toList := by simpa using right
      exact .inl (List.append_cancel_right whole)
    | bare other rest =>
      rename_i key' a' b'
      obtain ⟨-, behind⟩ := cut other (b := "\"true\"]".toList) (a := "true]".toList ++ a')
        (by simpa using left.symm)
      simp at behind
  · rintro (rfl | rfl)
    · have whole := SameTest.cons '&' (SameTest.quoted shape .nil)
      simpa using whole
    · simpa using SameTest.refl _

theorem SameSteps.refl {a : Option (List Step)} (known : a.isSome = true) : SameSteps a a := by
  obtain ⟨steps, known⟩ := Option.isSome_iff_exists.mp known
  refine ⟨steps, steps, known, known, List.forall₂_same.mpr fun step _ => ?_⟩
  cases step with
  | selector a => exact .selector (.refl a)
  | atRule header => exact .atRule header

theorem sameSteps_one {a b : Text} :
    SameSteps (Standard.one a) (Standard.one b) ↔ SameTest a b := by
  constructor
  · rintro ⟨_, _, rfl', rfl'', same⟩
    cases rfl'
    cases rfl''
    obtain ⟨⟨same⟩, -⟩ := List.forall₂_cons.mp same
    exact same
  · exact fun same => ⟨_, _, rfl, rfl, .cons (.selector same) .nil⟩

/-- With the standard handlers a name means what the brackets meant, but for the
quotes of an attribute of accessibility. -/
theorem sameSteps_standard_iff {vs : Variants} {theme : Theme} {root t key : Text}
    (standard : StandardHandlers vs) (found : bareVariantValue? root t = some key) :
    SameSteps (vs.functionalSteps theme root (some (.named key)) none)
        (vs.functionalSteps theme root (some (.arbitrary t)) none) ↔
      (root = "aria" → t = key ++ "=true" ∨ t = key ++ "=\"true\"") := by
  have answer {handler : VariantHandler} (registered : vs.functionals.lookup root = some handler)
      (value : Argument) : vs.functionalSteps theme root (some value) none =
        handler (some value) none theme := by
    simp [Variants.functionalSteps, registered]
  unfold bareVariantValue? at found
  split at found
  · rename_i data
    split at found
    · cases found
      rw [answer (data ▸ standard.data), answer (data ▸ standard.data)]
      exact iff_of_true (SameSteps.refl (a := Standard.one _) rfl) (by simp [data])
    · cases found
  · split at found
    · rename_i aria
      rw [answer (aria ▸ standard.aria), answer (aria ▸ standard.aria), imp_iff_right aria]
      exact sameSteps_one.trans (sameTest_aria_iff found)
    · rename_i other
      split at found
      · rename_i supports
        split at found
        · cases found
          rw [answer (supports ▸ standard.supports), answer (supports ▸ standard.supports)]
          exact iff_of_true (SameSteps.refl (a := Standard.oneAtRule _ _) rfl) (by simp [supports])
        · cases found
      · cases found

/-- Nothing but the inner variant decides on a compound that has no name of its own. -/
theorem steps_compound {vs : Variants} {theme : Theme} {root : Text} {m : Option Argument}
    {inner inner' : Variant} (same : vs.steps theme inner' = vs.steps theme inner)
    (no_name : vs.statics.lookup (root ++ '-' :: inner.print) = none)
    (no_name' : vs.statics.lookup (root ++ '-' :: inner'.print) = none) :
    vs.steps theme (.compound root m inner') = vs.steps theme (.compound root m inner) := by
  simp [Variants.steps, Variants.staticSteps, no_name, no_name', same]

/-- A promoted class keeps its meaning exactly when the registry gives each promoted
variant the steps of the variant before. Where nothing else answers to the name of
a key, that is up to the handler of its root: the standard ones fail only for the
quotes of an attribute of accessibility. A compound without a name of its own
follows its inner variant. -/
theorem promotion_keeps_meaning_iff (system : DesignSystem) {raw : Text} {c c' : Candidate}
    (read : system.parseCandidate raw = some c) (canonical : system.printCandidate c = raw)
    (again : system.parseCandidate (bareClass system raw) = some c') :
    let vs := system.variants
    let means := vs.steps system.theme
    (List.Forall₂ (fun v' v => SameSteps (means v') (means v)) c'.variants c.variants ↔
      ∀ v ∈ c.variants, SameSteps (means (promoteVariant v)) (means v)) ∧
    (∀ root t key, bareVariantValue? root t = some key → Unshadowed vs system.theme root key →
      let v : Variant := .functional root (some (.arbitrary t)) none
      let handled value := vs.functionalSteps system.theme root (some value) none
      (SameSteps (means (promoteVariant v)) (means v) ↔
        SameSteps (handled (.named key)) (handled (.arbitrary t))) ∧
      (StandardHandlers vs → (SameSteps (means (promoteVariant v)) (means v) ↔
        (root = "aria" → t = key ++ "=true" ∨ t = key ++ "=\"true\"")))) ∧
    ∀ root m inner, means (promoteVariant inner) = means inner →
      vs.statics.lookup (root ++ '-' :: inner.print) = none →
        vs.statics.lookup (root ++ '-' :: (promoteVariant inner).print) = none →
          means (promoteVariant (.compound root m inner)) = means (.compound root m inner) := by
  intro vs means
  refine ⟨?_, ?_, ?_⟩
  · rw [variants_of_promoted system read canonical again, List.forall₂_map_left_iff, List.forall₂_same]
    simp only [means, vs, steps_recut]
  · intro root t key found free v handled
    have promoted : means (promoteVariant v) = handled (.named key) := by
      rw [show promoteVariant v = .functional root (some (.named key)) none by
        simp [v, promoteVariant, found]]
      exact steps_of_unshadowed free
    have before : means v = handled (.arbitrary t) := by simp [means, v, handled, Variants.steps]
    rw [promoted, before]
    exact ⟨Iff.rfl, fun standard => sameSteps_standard_iff standard found⟩
  · intro root m inner same no_name no_name'
    exact steps_compound same no_name no_name'

theorem promotion_keeps_data_attribute :
    ∃ b, (Builder.bare Theme.empty).functionalVariant "data" Standard.data = .ok b ∧
      let system := b.build
      let c : Candidate := ⟨.static "flex" false, [.functional "data" (some (.arbitrary "open")) none], false⟩
      let c' : Candidate := ⟨.static "flex" false, [.functional "data" (some (.named "open")) none], false⟩
      system.parseCandidate "data-[open]:flex" = some c ∧
        system.parseCandidate (bareClass system "data-[open]:flex") = some c' ∧
          List.Forall₂ (fun v' v => SameSteps (system.variants.steps system.theme v')
            (system.variants.steps system.theme v)) c'.variants c.variants := by
  refine ⟨_, rfl, ?_⟩
  intro system c c'
  have read : system.parseCandidate "data-[open]:flex" = some c := by decide +kernel
  have again : system.parseCandidate (bareClass system "data-[open]:flex") = some c' := by decide +kernel
  obtain ⟨whole, leaf, -⟩ := promotion_keeps_meaning_iff system read (by decide +kernel) again
  have only : system.variants.functionals = [("data".toList, Standard.data)] := rfl
  have free : Unshadowed system.variants system.theme "data" "open" := by
    refine ⟨rfl, fun r w _ other => ?_⟩
    rw [Variants.functionalSteps, only, List.lookup_cons, beq_eq_false_iff_ne.mpr other]
    rfl
  have answered := (leaf "data" "open" "open" (by decide +kernel) free).1
  refine ⟨read, again, whole.mpr ?_⟩
  simpa [c] using answered.mpr (SameSteps.refl rfl)

/-- Something else may be registered under the name of a key. -/
theorem promotion_meets_registered_name :
    ∃ b₁ b₂, (Builder.bare Theme.empty).functionalVariant "data" Standard.data = .ok b₁ ∧
      b₁.staticVariant "data-selected" ["&.selected"] = .ok b₂ ∧
      let system := b₂.build
      ∃ raw c c', system.parseCandidate raw = some c ∧ system.printCandidate c = raw ∧
        (∀ v ∈ c.variants, (system.variants.steps system.theme v).isSome = true) ∧
        system.parseCandidate (bareClass system raw) = some c' ∧
        ¬ List.Forall₂ (fun v' v => SameSteps (system.variants.steps system.theme v')
          (system.variants.steps system.theme v)) c'.variants c.variants := by
  refine ⟨_, _, rfl, rfl, "data-[selected]:flex",
    ⟨.static "flex" false, [.functional "data" (some (.arbitrary "selected")) none], false⟩,
    ⟨.static "flex" false, [.functional "data" (some (.named "selected")) none], false⟩,
    by decide +kernel, by decide +kernel, by decide +kernel, by decide +kernel, fun same => ?_⟩
  obtain ⟨⟨s, t, after, before, steps⟩, -⟩ := List.forall₂_cons.mp same
  obtain rfl : [Step.selector "&.selected"] = s := Option.some.inj after
  obtain rfl : [Step.selector "&[data-selected]"] = t := Option.some.inj before
  obtain ⟨⟨test⟩, -⟩ := List.forall₂_cons.mp steps
  exact absurd (sameTest_eq test (by decide)) (by decide)

end AtomicCss.Migration
