import AtomicCss.Proofs.Migration.Rereading

/-! Which calls that ask for a token are left in a migrated value. The migration looks at the
outermost calls of the theme only, so what is left stands in a call that is kept because its own
arguments ask for nothing, or in what is written in place of a call: its modifier, or the name of
its token. -/
namespace AtomicCss.Migration
open Text Value

/-- A call of the theme with arguments that ask for a token stands among the siblings or below them. -/
inductive Pending (theme : Theme) : List Node → Prop
  | here {args ns : List Node} {token : Text} {modifier : Option Text}
      (asked : Asks theme (render args) token modifier) : Pending theme (.call "theme" args :: ns)
  | inside {name : Text} {args ns : List Node} (inside : Pending theme args) :
      Pending theme (.call name args :: ns)
  | later {n : Node} {ns : List Node} (later : Pending theme ns) : Pending theme (n :: ns)

/-- What stands between the parentheses of a call of the theme after the migration. -/
def standing (theme : Theme) (args : List Node) : List Node :=
  match request? theme (render args) with
  | some (token, modifier) => parse (referred token modifier)
  | none => args

section

variable {theme : Theme}

theorem pending_nil : ¬ Pending theme [] := nofun

theorem pending_leaf {n : Node} {ns : List Node} (leaf : ∀ name args, n ≠ .call name args) :
    Pending theme (n :: ns) ↔ Pending theme ns := by
  constructor
  · rintro (asked | inside | later)
    · exact absurd rfl (leaf _ _)
    · exact absurd rfl (leaf _ _)
    · exact later
  · exact .later

/-- A call that asks for nothing itself. -/
theorem pending_call {name : Text} {args ns : List Node}
    (unasked : name = "theme".toList → ∀ token modifier, ¬ Asks theme (render args) token modifier) :
    Pending theme (.call name args :: ns) ↔ Pending theme args ∨ Pending theme ns := by
  constructor
  · rintro (asked | inside | later)
    · exact absurd asked (unasked rfl _ _)
    · exact .inl inside
    · exact .inr later
  · rintro (inside | later)
    · exact .inside inside
    · exact .later later

/-- What is left of a call of the theme. -/
theorem pending_theme (context : Context) (args : List Node) {ns : List Node} :
    Pending theme (rereadNode theme context (.call "theme" args) :: ns) ↔
      Pending theme (standing theme args) ∨ Pending theme ns := by
  rw [rereadNode, if_pos rfl, standing]
  cases request : request? theme (render args) with
  | none =>
    refine pending_call fun _ token modifier asked => ?_
    rw [request_eq_some.mpr asked] at request
    cases request
  | some found =>
    obtain ⟨token, modifier⟩ := found
    refine pending_call fun _ token' modifier' again => ?_
    have unasked := request_referred (request_eq_some.mp request)
    rw [render_parse] at again
    rw [request_eq_some.mpr again] at unasked
    cases unasked

/-- What is left in the migrated siblings stands in their outermost calls of the theme. -/
theorem pending_reread (context : Context) (ns : List Node) :
    Pending theme (reread theme context ns) ↔ ∃ args ∈ outermost ns, Pending theme (standing theme args) := by
  induction ns using nodes_induction with
  | nil =>
    rw [reread, outermost]
    simp [pending_nil]
  | cons n ns inside later =>
    have each (parts : List (List Node)) :
        (∃ args ∈ parts ++ outermost ns, Pending theme (standing theme args)) ↔
          (∃ args ∈ parts, Pending theme (standing theme args)) ∨ Pending theme (reread theme context ns) := by
      simp [later, or_and_right, exists_or]
    rw [reread, outermost, each]
    cases n with
    | word t =>
      rw [rereadNode, outermostNode, pending_leaf (word_ne_call t)]
      simp
    | separator t =>
      rw [rereadNode, outermostNode, pending_leaf (separator_ne_call t)]
      simp
    | call name args =>
      rw [outermostNode]
      by_cases called : name = "theme".toList
      · rw [if_pos called, called, pending_theme]
        simp
      · rw [rereadNode, if_neg called, if_neg called, pending_call fun same => absurd same called,
          inside name args rfl]

/-- A migrated value holds a call that asks for a token exactly where what stands in an outermost call of
the theme, kept or replaced, holds one. -/
theorem calls_all_replaced_iff (theme : Theme) (context : Context) (t : Text)
    (unescaped : ∀ args ∈ outermost (parse t), '\\' ∈ render args → request? theme (render args) = none) :
    ¬ Pending theme (parse (migrateValue theme context t)) ↔
      ∀ args ∈ outermost (parse t), ¬ Pending theme (standing theme args) := by
  rw [parse_migrateValue context unescaped, pending_reread]
  simp

end

/-- In a sum of two calls the one that asks for a token is replaced, and no other is left. -/
theorem sum_all_replaced :
    (∀ args ∈ outermost (parse "calc(theme(colors.red) + theme(colors.brand))"),
      '\\' ∈ render args → request? plainTheme (render args) = none) ∧
    ¬ Pending plainTheme (parse (migrateValue plainTheme .declaration
      "calc(theme(colors.red) + theme(colors.brand))")) := by
  have read : parse "calc(theme(colors.red) + theme(colors.brand))" =
      [.call "calc" [.call "theme" [.word "colors.red"], .separator " ", .word "+", .separator " ",
        .call "theme" [.word "colors.brand"]]] := by rfl
  have calls : outermost (parse "calc(theme(colors.red) + theme(colors.brand))") =
      [[.word "colors.red"], [.word "colors.brand"]] := by
    rw [read]
    rfl
  have unescaped : ∀ args ∈ outermost (parse "calc(theme(colors.red) + theme(colors.brand))"),
      '\\' ∈ render args → request? plainTheme (render args) = none := by
    rw [calls]
    decide +kernel
  refine ⟨unescaped, (calls_all_replaced_iff _ _ _ unescaped).mpr ?_⟩
  have asked : request? plainTheme (render [.word "colors.red"]) =
      some ("--color-red".toList, none) := by
    decide +kernel
  have unasked : request? plainTheme (render [.word "colors.brand"]) = none := by decide +kernel
  have found : standing plainTheme [.word "colors.red"] = [.word "--color-red"] := by
    rw [standing, asked]
    rfl
  have kept : standing plainTheme [.word "colors.brand"] = [.word "colors.brand"] := by
    rw [standing, unasked]
  have alone (t : Text) : ¬ Pending plainTheme [.word t] := by
    rw [pending_leaf (word_ne_call t)]
    exact pending_nil
  rw [calls, List.forall_mem_cons, List.forall_mem_singleton, found, kept]
  exact ⟨alone _, alone _⟩

/-- A call among the arguments of a call that asks for nothing is left. -/
theorem inner_call_left :
    migrateValue plainTheme .declaration "theme(colors.brand, theme(colors.red))" =
      "theme(colors.brand, theme(colors.red))" ∧
    Pending plainTheme (parse (migrateValue plainTheme .declaration
      "theme(colors.brand, theme(colors.red))")) := by
  have same : migrateValue plainTheme .declaration "theme(colors.brand, theme(colors.red))" =
      "theme(colors.brand, theme(colors.red))" := by decide +kernel
  have read : parse "theme(colors.brand, theme(colors.red))" =
      [.call "theme" [.word "colors.brand", .separator ", ", .call "theme" [.word "colors.red"]]] := by rfl
  have asked : Asks plainTheme (render [.word "colors.red"]) "--color-red" none :=
    request_eq_some.mp (by decide +kernel)
  refine ⟨same, ?_⟩
  rw [same, read]
  exact .inside (.later (.later (.here asked)))

end AtomicCss.Migration
