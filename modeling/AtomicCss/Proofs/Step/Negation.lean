import AtomicCss.Proofs.Css.Condition
import AtomicCss.Step.Relation

/-! When the negation of an at-rule is its complement. The negation puts words in front of the
condition, whatever that is. Their meaning reaches as far as CSS says: to one group behind `not`, to
the features behind a type of medium, and never beyond a comma. -/
namespace AtomicCss.Css
open Text Value

/-- A condition that the words in front negate as a whole. For `supports` it is one group. For `media` it
begins with groups that are joined by `and`, and no query behind a comma holds on the device. -/
def Negatable (d : Device) (header : AtRule) : Prop :=
  if header.name = "supports" then ∃ c, headerTokens header = [.group c]
  else ∃ first others, queries (headerTokens header) = first :: others ∧ (features? first).isSome ∧
    ∀ other ∈ others, ∃ q, query? other = some q ∧ q.holds d = false

/-- The second condition is one that can be read, and it holds on the device exactly if the first does not. -/
def Complement (d : Device) (header opposite : AtRule) : Prop :=
  WellFormed opposite ∧ (Holds d opposite ↔ ¬ Holds d header)

theorem condition_not {ts : List Token} {n : Condition} (read : condition? (.word "not" :: ts) = some n) :
    ∃ c, ts = [.group c] ∧ n = c.not := by
  cases ts with
  | nil => cases read
  | cons t ts =>
    cases t with
    | group c =>
      cases ts with
      | nil => exact ⟨c, rfl, (Option.some.inj read).symm⟩
      | cons => cases read
    | _ => cases read

theorem query_not_all (ts : List Token) :
    query? (.word "not" :: .word "all" :: .word "and" :: ts) =
      (features? ts).map fun c => .typed true "all" (some c) := rfl

/-- Queries that can all be read, and of which none holds. -/
theorem silent_iff {d : Device} {others : List (List Token)} :
    (∀ other ∈ others, ∃ q, query? other = some q ∧ q.holds d = false) ↔
      none ∉ others.map query? ∧ ¬ ∃ q, some q ∈ others.map query? ∧ q.holds d = true := by
  constructor
  · intro silent
    refine ⟨fun unread => ?_, ?_⟩
    · obtain ⟨other, member, read⟩ := List.mem_map.mp unread
      obtain ⟨q, read', -⟩ := silent other member
      rw [read] at read'
      cases read'
    · rintro ⟨q, inside, holds⟩
      obtain ⟨other, member, read⟩ := List.mem_map.mp inside
      obtain ⟨q', read', silent⟩ := silent other member
      obtain rfl := Option.some.inj (read.symm.trans read')
      rw [holds] at silent
      cases silent
  · rintro ⟨readable, silent⟩ other member
    cases read : query? other with
    | none => exact absurd (read ▸ List.mem_map_of_mem member) readable
    | some q =>
      have inside : some q ∈ others.map query? := read ▸ List.mem_map_of_mem member
      exact ⟨q, rfl, Bool.eq_false_iff.mpr fun holds => silent ⟨q, inside, holds⟩⟩

section

variable (d : Device) (params : Text)

theorem complement_supports :
    Complement d ⟨"supports", params⟩ ⟨"supports", "not ".toList ++ params⟩ ↔ Negatable d ⟨"supports", params⟩ := by
  have negated : headerTokens ⟨"supports", "not ".toList ++ params⟩ =
      .word "not" :: headerTokens ⟨"supports", params⟩ :=
    tokens_keyword supportFunctions (u := "not") (by decide) (forall_of_all rfl) params
  have read (p : Text) : alternatives ⟨"supports", p⟩ =
      [(condition? (headerTokens ⟨"supports", p⟩)).map .plain] := if_pos rfl
  have shape : Negatable d ⟨"supports", params⟩ = ∃ c, headerTokens ⟨"supports", params⟩ = [.group c] := if_pos rfl
  rw [shape, Complement, WellFormed, Holds, Holds, read, read, negated]
  generalize headerTokens ⟨"supports", params⟩ = ts
  constructor
  · rintro ⟨formed, -⟩
    cases read : condition? (.word "not" :: ts) with
    | none =>
      rw [read] at formed
      exact absurd List.mem_cons_self formed
    | some n =>
      obtain ⟨c, alone, -⟩ := condition_not read
      exact ⟨c, alone⟩
  · rintro ⟨c, rfl⟩
    have inner : condition? [.group c] = some c := rfl
    have outer : condition? [.word "not", .group c] = some c.not := rfl
    rw [inner, outer]
    simp [Query.holds, Condition.holds]

theorem complement_media :
    Complement d ⟨"media", params⟩ ⟨"media", "not all and ".toList ++ params⟩ ↔ Negatable d ⟨"media", params⟩ := by
  have negated : headerTokens ⟨"media", "not all and ".toList ++ params⟩ =
      .word "not" :: .word "all" :: .word "and" :: headerTokens ⟨"media", params⟩ := by
    have behind_all := tokens_keyword [] (u := "and") (by decide) (forall_of_all rfl) params
    have behind_not := tokens_keyword [] (u := "all") (by decide) (forall_of_all rfl) ("and ".toList ++ params)
    have whole := tokens_keyword [] (u := "not") (by decide) (forall_of_all rfl) ("all and ".toList ++ params)
    exact whole.trans (congrArg (_ :: ·) (behind_not.trans (congrArg (_ :: ·) behind_all)))
  have read (p : Text) : alternatives ⟨"media", p⟩ = (queries (headerTokens ⟨"media", p⟩)).map query? :=
    if_neg (by decide : "media".toList ≠ "supports".toList)
  have shape : Negatable d ⟨"media", params⟩ =
      ∃ first others, queries (headerTokens ⟨"media", params⟩) = first :: others ∧ (features? first).isSome ∧
        ∀ other ∈ others, ∃ q, query? other = some q ∧ q.holds d = false :=
    if_neg (by decide : "media".toList ≠ "supports".toList)
  obtain ⟨first, others, cut⟩ := queries_ne_nil (headerTokens ⟨"media", params⟩)
  have cut' : queries (headerTokens ⟨"media", "not all and ".toList ++ params⟩) =
      (.word "not" :: .word "all" :: .word "and" :: first) :: others := by
    rw [negated, queries_word, queries_word, queries_word, cut]
    rfl
  rw [shape, Complement, WellFormed, Holds, Holds, read, read, cut, cut', List.map_cons, List.map_cons, query_not_all]
  cases features : features? first with
  | none => simp [features]
  | some c =>
    have either (r : Query) : (∃ q, some q ∈ some r :: others.map query? ∧ q.holds d = true) ↔
        r.holds d = true ∨ ∃ q, some q ∈ others.map query? ∧ q.holds d = true := by
      simp [or_and_right, exists_or]
    have plain : (Query.plain c).holds d = c.holds d := rfl
    have opposite : (Query.typed true "all" (some c)).holds d = !c.holds d := by simp [Query.holds]
    have only : (∃ first' others', first :: others = first' :: others' ∧ (features? first').isSome ∧
        ∀ other ∈ others', ∃ q, query? other = some q ∧ q.holds d = false) ↔
        ∀ other ∈ others, ∃ q, query? other = some q ∧ q.holds d = false := by
      simp [features]
    rw [query_of_features features, Option.map_some, only, silent_iff, either, either, plain, opposite]
    cases c.holds d <;> simp

end

end AtomicCss.Css

namespace AtomicCss.Step
open Css

/-- Where the steps of a variant leave the element alone, their negation is an at-rule of the same kind, and that
is the complement of the at-rule exactly if its condition is one that words in front negate as a whole. -/
theorem negation_complements_iff {steps negated : List Step} (bare : (Composition.ofSteps steps).selector = "&")
    (done : negate steps = some negated) (d : Device) :
    ∃ header opposite, (Composition.ofSteps steps).atRules = [header] ∧ negated = [.atRule opposite] ∧
      opposite.name = header.name ∧ (header.name = "media" ∨ header.name = "supports") ∧
      (Complement d header opposite ↔ Negatable d header) := by
  unfold negate at done
  dsimp only at done
  rw [if_neg (not_not.mpr bare)] at done
  split at done
  · rename_i header alone
    obtain ⟨name, params⟩ := header
    dsimp only at done
    split at done
    · rename_i media
      cases done
      subst media
      exact ⟨_, _, alone, rfl, rfl, .inl rfl, complement_media d params⟩
    · split at done
      · rename_i supports
        cases done
        subst supports
        exact ⟨_, _, alone, rfl, rfl, .inr rfl, complement_supports d params⟩
      · cases done
  · cases done

/-- One feature is negated as a whole, also where a step leaves the element alone. -/
theorem feature_negated :
    negate [.atRule ⟨"media", "(hover)"⟩, .selector "&"] = some [.atRule ⟨"media", "not all and (hover)"⟩] ∧
      Complement ⟨"screen", fun t => t == "hover".toList⟩ ⟨"media", "(hover)"⟩ ⟨"media", "not all and (hover)"⟩ := by
  have done : negate [.atRule ⟨"media", "(hover)"⟩, .selector "&"] =
      some [.atRule ⟨"media", "not all and (hover)"⟩] := by decide +kernel
  have single : (Composition.ofSteps [.atRule ⟨"media", "(hover)"⟩, .selector "&"]).atRules =
      [⟨"media", "(hover)"⟩] := by decide +kernel
  obtain ⟨header, opposite, alone, same, -, -, complements⟩ :=
    negation_complements_iff (by decide +kernel) done ⟨"screen", fun t => t == "hover".toList⟩
  rw [single] at alone
  cases alone
  cases same
  have alternatives : queries (headerTokens ⟨"media", "(hover)"⟩) = [[.group (.feature "hover")]] := by
    decide +kernel
  exact ⟨done, complements.mpr ⟨_, [], alternatives, rfl, nofun⟩⟩

/-- The negation of a type of medium can not be read. -/
theorem medium_not_negated :
    negate [.atRule ⟨"media", "print"⟩] = some [.atRule ⟨"media", "not all and print"⟩] ∧
      WellFormed ⟨"media", "print"⟩ ∧ ¬ WellFormed ⟨"media", "not all and print"⟩ := by decide +kernel

end AtomicCss.Step
