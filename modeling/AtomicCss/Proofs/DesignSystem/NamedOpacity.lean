import AtomicCss.Proofs.DesignSystem.Soundness
import AtomicCss.Proofs.Negative.Literal
import AtomicCss.Proofs.Text.Trim

/-! Named modifiers as opacities. A number behind a color or a property becomes a percentage of
its opacity. What counts as a number is left to the reader of numerals, and that one also takes
words for infinity and for what is no number, so that these come out as percentages too. -/
namespace AtomicCss
open Text

theorem visible_of_isNumeralChar {c : Char} (numeral : IsNumeralChar c) : isBlank c = false := by
  rcases numeral with letter | rfl | rfl | rfl
  · exact visible_of_isNameChar (by simp [isNameChar, letter])
  all_goals rfl

/-- A percentage of a numeral is no numeral, so that it stays as it is written. -/
theorem opacityPercentage_percent {m : Text} (numeral : isNumeral m = true) :
    opacityPercentage (m ++ ['%']) = m ++ ['%'] := by
  have characters := isNumeralChar_of_isNumeral numeral
  have trimmed : trim (m ++ ['%']) = m ++ ['%'] := by
    refine trim_between (b := []) (fun d head => ?_) rfl
    rcases List.mem_append.mp (List.mem_of_mem_head? head) with member | last
    · exact visible_of_isNumeralChar (characters d member)
    · obtain rfl := List.mem_singleton.mp last
      rfl
  have unread : Numeral.ofText? (m ++ ['%']) = none := by
    rw [← Option.not_isSome_iff_eq_none]
    intro read
    exact absurd (isNumeralChar_of_isNumeral read '%' (by simp)) (by decide)
  rw [opacityPercentage, trimmed, unread]

namespace FunctionalUtility

variable {u : FunctionalUtility} {theme : Theme}

/-- A name that is not in the table stands for an opacity exactly if it is a numeral. -/
theorem modifierText_opacity {table : List (Text × Text)} {m : Text} (policy : u.Policy true (.lookup table))
    (absent : table.lookup m = none) :
    u.modifierText theme true (.named m) = if isNumeral m then some (m ++ ['%']) else none := by
  rw [modifierText.eq_def, (policy_iff (by simp)).mp policy]
  simp only [absent, Bool.true_and]
  rfl

theorem numeral_of_answer {value : Option UtilityValue} {m t : Text} {negative : Bool}
    {type : Option DataType} {table : List (Text × Text)} {nodes : List Css.Node}
    (takes : u.Takes theme value (some (.named m)) t type (some (.named m)))
    (color : u.colors type = true) (policy : u.Policy true (.lookup table))
    (absent : table.lookup m = none)
    (answer : u.answer theme value (some (.named m)) negative = .matched nodes) : isNumeral m = true := by
  by_contra other
  obtain ⟨sign, -⟩ := takes_of_answer (by rw [answer]; simp)
  rw [answer_of_takes sign takes, reply, color, modifierText_opacity policy absent, if_neg other] at answer
  dsimp only at answer
  split at answer <;> cases answer

end FunctionalUtility

namespace DesignSystem

/-- The named modifier of a term becomes the percentage of an opacity: where a utility takes the
value for a color, answers, and has no entry for the modifier in its table; or behind a property. -/
inductive Fades (system : DesignSystem) (m : Text) : UtilityTerm → Prop
  | utility {term : UtilityTerm} {root t : Text} {value : Option UtilityValue} {negative : Bool}
    {u : FunctionalUtility} {type : Option DataType} {table : List (Text × Text)} {nodes : List Css.Node}
    (offered : Offered term root value (some (.named m)) negative)
    (registered : (root, .functional u) ∈ system.utilities.records)
    (takes : u.Takes system.theme value (some (.named m)) t type (some (.named m)))
    (color : u.colors type = true) (policy : u.Policy true (.lookup table))
    (absent : table.lookup m = none)
    (answer : u.answer system.theme value (some (.named m)) negative = .matched nodes) :
    Fades system m term
  | property (name value : Text) : Fades system m (.property name value (some (.named m)))

/-- The modifier is written with a percent sign, and it denotes a finite number exactly if it is
not one of the words that only the reader of numerals takes for numbers. -/
theorem opacity_finite_iff {system : DesignSystem} {c : Candidate} {m : Text} {nodes : List Css.Node}
    (resolved : system.resolve c = some nodes) (fades : system.Fades m c.base) :
    opacityPercentage (m ++ ['%']) = m ++ ['%'] ∧ ((∃ l : Literal, m = l.text) ↔ ¬ Endless m) := by
  have numeral : isNumeral m = true := by
    generalize same : c.base = term at fades
    cases fades with
    | utility _ _ takes color policy absent answer =>
      exact FunctionalUtility.numeral_of_answer takes color policy absent answer
    | property name value =>
      obtain ⟨declared, found, -⟩ := Option.map_eq_some_iff.mp resolved
      rw [same] at found
      exact (Option.ite_none_right_eq_some.mp found).1
  refine ⟨opacityPercentage_percent numeral, ?_, fun finite => ?_⟩
  · rintro ⟨l, rfl⟩
    exact l.not_endless
  · exact (isNumeral_iff.mp numeral).resolve_right finite

/-- A color with an entry in its table for another modifier. -/
theorem eighth_of_red_finite :
    let u : FunctionalUtility :=
      { emit := fun v _ => [Css.declare "fill" v], types := [.color], themeKeys := ["--color"],
        modifiers := some (.lookup [("half", "50%")]) }
    let system : DesignSystem :=
      ⟨none, Theme.empty.insert "--color-red" "#f00", ⟨[("fill", .functional u)]⟩, .empty⟩
    let c : Candidate := ⟨.functional "fill" (some (.named "red")) (some (.named "12.5")) false, [], true⟩
    let mixed := "color-mix(in oklab, var(--color-red) 12.5%, transparent)"
    system.resolve c = some (Css.markImportant [Css.declare "fill" mixed]) ∧
      system.Fades "12.5" c.base ∧ ¬ Endless "12.5" ∧ ∃ l : Literal, "12.5" = l.text := by
  intro u system c mixed
  have resolved : system.resolve c = some (Css.markImportant [Css.declare "fill" mixed]) := by
    decide +kernel
  have takes : u.Takes system.theme (some (.named "red")) (some (.named "12.5")) "var(--color-red)" none
      (some (.named "12.5")) := .named (fun _ _ => rfl) (by decide +kernel)
  have answer : u.answer system.theme (some (.named "red")) (some (.named "12.5")) false =
      .matched [Css.declare "fill" mixed] := by decide +kernel
  have fades : system.Fades "12.5" c.base :=
    .utility (.cut _ _ rfl) (List.mem_singleton.mpr rfl) takes rfl (.declared rfl) rfl answer
  have finite : ¬ Endless "12.5" := by decide
  exact ⟨resolved, fades, finite, (opacity_finite_iff resolved fades).2.mpr finite⟩

/-- The word for infinity is taken for an opacity. -/
theorem infinite_opacity_emitted :
    ¬ ∀ (system : DesignSystem) (c : Candidate) (m : Text) (nodes : List Css.Node),
      system.resolve c = some nodes → system.Fades m c.base → ∃ l : Literal, m = l.text := by
  intro finite
  let system : DesignSystem := ⟨none, .empty, .empty, .empty⟩
  let c : Candidate := ⟨.property "color" "red" (some (.named "inf")), [], false⟩
  have resolved : system.resolve c =
      some [Css.declare "color" "color-mix(in oklab, red inf%, transparent)"] := by decide +kernel
  obtain ⟨l, same⟩ := finite system c "inf" _ resolved (.property "color" "red")
  exact l.not_endless (same ▸ by decide)

end DesignSystem
end AtomicCss
