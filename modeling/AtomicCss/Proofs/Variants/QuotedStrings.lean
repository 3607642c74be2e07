import AtomicCss.Proofs.Text.Quoted
import AtomicCss.Proofs.Variants.NestedRules

/-! Strings of templates in the selectors of rules. Lists are split outside of strings, but `&` is replaced in them as
well. So the strings of all templates come through unchanged exactly if none of them has an `&`. -/
namespace AtomicCss.Step
open Text

/-- A template whose brackets and quotes match, with an `&` outside of quotes in each branch, and no backslash that
takes an `&`, or a blank character, or the end out of play. -/
structure Anchored (t : Text) : Prop where
  balanced : Text.balanced t = true
  held : ∀ branch ∈ segment ',' t, ∃ cut ∈ splits '&' branch, (Scan.after .plain cut.1).outside = true
  unescaped : ∀ cut ∈ splits '\\' t, cut.2.head?.any (fun c => !isBlank c && c != '&') = true

instance (t : Text) : Decidable (Anchored t) :=
  decidable_of_iff (Text.balanced t = true ∧
      (∀ branch ∈ segment ',' t, ∃ cut ∈ splits '&' branch, (Scan.after .plain cut.1).outside = true) ∧
      ∀ cut ∈ splits '\\' t, cut.2.head?.any (fun c => !isBlank c && c != '&') = true)
    ⟨fun ⟨balanced, held, unescaped⟩ => ⟨balanced, held, unescaped⟩,
      fun ⟨balanced, held, unescaped⟩ => ⟨balanced, held, unescaped⟩⟩

/-- A backslash stands in front of each `&`. -/
def Masked (t : Text) : Prop := ∀ a b, t = a ++ '&' :: b → ∃ front, a = front ++ ['\\']

namespace Masked

theorem of_absent {t : Text} (absent : '&' ∉ t) : Masked t := by
  rintro a b rfl
  simp at absent

theorem append {t u : Text} (first : Masked t) (second : Masked u) : Masked (t ++ u) := by
  intro a b whole
  rcases List.append_eq_append_iff.mp whole with ⟨m, rfl, rest⟩ | ⟨m, rfl, rest⟩
  · obtain ⟨front, rfl⟩ := second m b rest
    exact ⟨t ++ front, by simp⟩
  · cases m with
    | nil =>
      obtain ⟨front, same⟩ := second [] b rest.symm
      simp at same
    | cons c m =>
      obtain ⟨rfl, -⟩ := List.cons.inj rest
      exact first a m rfl

theorem flatMap {f : Char → Text} (each : ∀ c, Masked (f c)) (t : Text) : Masked (t.flatMap f) := by
  induction t with
  | nil => exact of_absent (by simp)
  | cons c t ih => exact (each c).append ih

theorem escapeChar (c : Char) : Masked (Css.escapeChar c) := by
  unfold Css.escapeChar
  split
  · intro a b whole
    match a, whole with
    | [], whole => simp at whole
    | [d], whole =>
      obtain ⟨rfl, -⟩ := List.cons.inj whole
      exact ⟨[], rfl⟩
    | _ :: _ :: a, whole => simp at whole
  · rename_i bare
    refine of_absent fun member => ?_
    obtain rfl := List.mem_singleton.mp member
    exact bare rfl

theorem escapeClass (t : Text) : Masked (Css.escapeClass t) := by
  unfold Css.escapeClass
  split
  · exact of_absent (by simp)
  · rename_i c rest
    refine append ?_ (flatMap escapeChar rest)
    split
    · rename_i digit
      have other : c ≠ '&' := by
        rintro rfl
        cases digit
      exact of_absent (by simpa using other.symm)
    · exact escapeChar c

theorem replace {u : Text} (masked : Masked u) (t : Text) : Masked (Text.replace '&' u t) := by
  refine flatMap (fun c => ?_) t
  split
  · exact masked
  · rename_i other
    exact of_absent (by simpa using Ne.symm other)

/-- An `&` with anything else in front is in no part of the text. -/
theorem not_part {t : Text} (masked : Masked t) {c : Char} (other : c ≠ '\\') (a b : Text) :
    ¬ (a ++ c :: '&' :: b) <:+: t := by
  rintro ⟨x, y, rfl⟩
  obtain ⟨front, same⟩ := masked (x ++ a ++ [c]) (b ++ y) (by simp)
  exact other (List.cons.inj (List.append_inj_right' same rfl)).1

end Masked

namespace Anchored

variable {t : Text}

theorem closes (anchored : Anchored t) : (Scan.after .plain t).outside = true := by
  obtain ⟨s, reached, outside⟩ := balanced_iff.mp anchored.balanced
  rwa [track_scan reached]

theorem mem_branch (anchored : Anchored t) {b : Text} (member : b ∈ branches t) : '&' ∈ b := by
  obtain ⟨piece, inside, rfl⟩ := List.mem_map.mp member
  obtain ⟨⟨a, rest⟩, cut, -⟩ := anchored.held piece inside
  have here : ['&'] <:+: piece := ⟨a, rest, by simp [mem_splits.mp cut]⟩
  have visible : ∀ c, some '&' = some c → isBlank c = false := by
    rintro _ ⟨⟩
    rfl
  have kept : ['&'] <:+: trim piece := infix_trim visible visible here
  exact kept.subset (List.mem_singleton_self _)

/-- Where no string has an `&`, each one can be replaced. -/
theorem readable (anchored : Anchored t) (free : ∀ q, StringOf q t → '&' ∉ q) : Readable t where
  balanced := anchored.balanced
  unquoted := (mem_string_iff anchored.closes rfl).mp free
  unescaped := anchored.unescaped
  visible := fun _ member same => by
    have held := anchored.mem_branch member
    rw [same] at held
    cases held

/-- A string with an `&` is no part of a masked text. -/
theorem string_not_part (anchored : Anchored t) {q s : Text} (string : StringOf q t) (member : '&' ∈ q)
    (masked : Masked s) : ¬ q <:+: s := by
  obtain ⟨a, b, rfl⟩ := List.append_of_mem member
  obtain ⟨quoted, before, behind, rfl, -⟩ := string
  obtain rfl | ⟨a, c, rfl⟩ := List.eq_nil_or_concat a
  · obtain ⟨d, u, same, quote, -⟩ := quoted
    obtain ⟨rfl, -⟩ := List.cons.inj same
    cases quote
  · have other : c ≠ '\\' := by
      rintro rfl
      have shown := anchored.unescaped (before ++ a, '&' :: (b ++ behind)) (mem_splits.mpr (by simp))
      cases shown
    rw [List.concat_eq_append, List.append_assoc]
    exact masked.not_part other a b

end Anchored

section

variable {q : Text}

/-- What a branch has stays in a branch: each step has a place for it. -/
theorem infix_compose {steps : List Step} (anchored : ∀ template, .selector template ∈ steps → Anchored template)
    {outers : List Text} {o : Text} (member : o ∈ outers) (inside : q <:+: o) :
    ∃ b ∈ compose steps outers, q <:+: b := by
  induction steps generalizing outers o with
  | nil => exact ⟨o, member, inside⟩
  | cons step steps ih =>
    have others : ∀ template, .selector template ∈ steps → Anchored template := fun template later =>
      anchored template (List.mem_cons_of_mem step later)
    cases step with
    | atRule header => exact ih others member inside
    | selector template =>
      obtain ⟨b, rest, first⟩ : ∃ b rest, branches template = b :: rest :=
        List.exists_cons_of_ne_nil (by simp [branches, segment_ne_nil])
      have place := (anchored template List.mem_cons_self).mem_branch (b := b) (by simp [first])
      refine ih others (o := replace '&' o b) ?_ (inside.trans (infix_replace_image o place))
      exact List.mem_flatMap.mpr ⟨o, member, List.mem_map_of_mem (by simp [first])⟩

theorem string_infix_compose (absent : '&' ∉ q) {steps : List Step}
    (anchored : ∀ template, .selector template ∈ steps → Anchored template) {template : Text}
    (chosen : .selector template ∈ steps) (string : StringOf q template) {outers : List Text}
    (some_outer : outers ≠ []) : ∃ b ∈ compose steps outers, q <:+: b := by
  induction steps generalizing outers with
  | nil => cases chosen
  | cons step steps ih =>
    have others : ∀ template, .selector template ∈ steps → Anchored template := fun template later =>
      anchored template (List.mem_cons_of_mem step later)
    rcases List.mem_cons.mp chosen with rfl | later
    · obtain ⟨piece, member, inside⟩ := string.mem_segment ','
      obtain ⟨outer, rest, rfl⟩ := List.exists_cons_of_ne_nil some_outer
      have kept := infix_replace outer absent (string.1.infix_trim inside)
      refine infix_compose others (o := replace '&' outer (trim piece)) ?_ kept
      exact List.mem_flatMap.mpr ⟨outer, List.mem_cons_self, List.mem_map_of_mem (List.mem_map_of_mem member)⟩
    · cases step with
      | atRule header => exact ih others later some_outer
      | selector first => exact ih others later (fill_ne_nil first some_outer)

end

end AtomicCss.Step

namespace AtomicCss.Variants
open Text Step

/-- The strings of the templates of variants. -/
def IsString (vs : Variants) (theme : Theme) (variants : List Variant) (q : Text) : Prop :=
  ∃ template, .selector template ∈ vs.chain theme variants ∧ StringOf q template

/-- What is declared for the class itself gets the selector of the rule. That has none of the strings with an `&`, and
it has all strings of the templates exactly if there is no such string. -/
theorem strings_kept_iff (vs : Variants) (theme : Theme) (variants : List Variant) (class_ : Text)
    (nodes : List Css.Node) (known : vs.Known theme variants)
    (anchored : ∀ template, .selector template ∈ vs.chain theme variants → Anchored template) :
    ∃ out, vs.apply theme variants class_ nodes = some out ∧
      Css.trails [] out = (Css.trails [] nodes).map (fun trail =>
        ([Css.nest (vs.ruleSelector theme variants class_) trail.1], trail.2)) ∧
      (∀ q, vs.IsString theme variants q → '&' ∈ q → ¬ q <:+: vs.ruleSelector theme variants class_) ∧
      ((∀ q, vs.IsString theme variants q → q <:+: vs.ruleSelector theme variants class_) ↔
        ∀ q, vs.IsString theme variants q → '&' ∉ q) := by
  obtain ⟨out, applied, trails⟩ := trails_apply known class_ nodes
  have masked : Masked (vs.ruleSelector theme variants class_) := by
    refine Masked.replace ?_ _
    exact (Masked.of_absent (t := ['.']) (by decide)).append (.escapeClass class_)
  have lost : ∀ q, vs.IsString theme variants q → '&' ∈ q → ¬ q <:+: vs.ruleSelector theme variants class_ := by
    rintro q ⟨template, chosen, string⟩ member
    exact (anchored template chosen).string_not_part string member masked
  refine ⟨out, applied, trails, lost, fun kept q string member => lost q string member (kept q string), ?_⟩
  rintro free q ⟨template, chosen, string⟩
  have absent := free q ⟨template, chosen, string⟩
  have legible : Legible (vs.chain theme variants) := fun other chosen =>
    (anchored other chosen).readable fun q string => free q ⟨other, chosen, string⟩
  have start : [['&']] ≠ [] := by simp
  obtain ⟨b, member, inside⟩ := string_infix_compose absent anchored chosen string start
  rw [ruleSelector, Composition.ofSteps_selector legible]
  exact infix_replace _ absent (inside.trans (infix_joinWith member ", "))

/-- A string with a comma comes through a list of branches. -/
theorem listed_string_kept :
    let variants : List Variant := [.arbitrary "&[title=\"a, b\"]", .arbitrary "&:hover, p &"]
    Variants.empty.Known .empty variants ∧
      (∀ template, .selector template ∈ Variants.empty.chain .empty variants → Anchored template) ∧
      ∃ out, Variants.empty.apply .empty variants "x" [Css.declare "color" "red"] = some out ∧
        "\"a, b\"".toList <:+: Variants.empty.ruleSelector .empty variants "x" := by
  intro variants
  have known : Variants.empty.Known .empty variants := by
    intro v member
    simp only [variants, List.mem_cons, List.not_mem_nil, or_false] at member
    rcases member with rfl | rfl <;> exact ⟨_, rfl⟩
  have chain : Variants.empty.chain .empty variants =
      [.selector "&[title=\"a, b\"]", .selector "&:hover, p &"] := rfl
  have cases {motive : Text → Prop} (first : motive "&[title=\"a, b\"]") (second : motive "&:hover, p &") :
      ∀ template, .selector template ∈ Variants.empty.chain .empty variants → motive template := by
    intro template member
    simp only [chain, List.mem_cons, Step.selector.injEq, List.not_mem_nil, or_false] at member
    rcases member with rfl | rfl
    · exact first
    · exact second
  have anchored : ∀ template, .selector template ∈ Variants.empty.chain .empty variants → Anchored template :=
    cases (by decide +kernel) (by decide +kernel)
  obtain ⟨out, applied, -, -, kept⟩ :=
    strings_kept_iff Variants.empty .empty variants "x" [Css.declare "color" "red"] known anchored
  have free : ∀ q, Variants.empty.IsString .empty variants q → '&' ∉ q := by
    rintro q ⟨template, chosen, string⟩
    have unquoted := cases (motive := fun t => ∀ cut ∈ splits '&' t, (Scan.after .plain cut.1).outside = true)
      (by decide +kernel) (by decide +kernel) template chosen
    exact (mem_string_iff (anchored template chosen).closes rfl).mpr unquoted q string
  have quoted : Quoted ('"' :: ("a, b".toList ++ ['"'])) := quoted_plain rfl (forall_of_all rfl)
  exact ⟨known, anchored, out, applied,
    kept.mpr free _ ⟨"&[title=\"a, b\"]", by simp [chain], quoted, "&[title=", "]", rfl, rfl⟩⟩

/-- In a string the class takes the place of `&` as well. -/
theorem string_with_amp_replaced :
    let variants : List Variant := [.arbitrary "&[title=\"a&b\"]"]
    Anchored "&[title=\"a&b\"]" ∧ Variants.empty.IsString .empty variants "\"a&b\"" ∧
      Variants.empty.apply .empty variants "x" [Css.declare "color" "red"] =
        some [.rule ".x[title=\"a.xb\"]" [Css.declare "color" "red"]] ∧
      ¬ "\"a&b\"".toList <:+: ".x[title=\"a.xb\"]".toList := by
  have quoted : Quoted ('"' :: ("a&b".toList ++ ['"'])) := quoted_plain rfl (forall_of_all rfl)
  have string : StringOf "\"a&b\"" "&[title=\"a&b\"]" := ⟨quoted, "&[title=", "]", rfl, rfl⟩
  exact ⟨by decide +kernel, ⟨_, List.mem_singleton_self _, string⟩, by decide +kernel, by decide +kernel⟩

end AtomicCss.Variants
