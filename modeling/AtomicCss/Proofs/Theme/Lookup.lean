import AtomicCss.Proofs.Text.Replacement
import AtomicCss.Proofs.Theme.OrderedMap

/-! Listing a namespace against asking it for a key. The list cuts the namespace off the names of
the tokens, in their order; the look-up puts the key behind the namespace and asks the index for
that name. Whatever was declared and erased before, both know the same tokens, also where one
namespace begins like another. -/
namespace AtomicCss.Theme
open Text

section

variable {theme : Theme}

/-- The look-up asks for one name in each namespace and answers with the first name that it meets. -/
theorem lookup_eq_some {key : Option Text} {namespaces : List Text} {name : Text} :
    theme.lookup key namespaces = some name ↔
      ∃ before ns after, namespaces = before ++ ns :: after ∧ tokenName ns key = name ∧
        theme.contains name = true ∧ ∀ other ∈ before, theme.contains (tokenName other key) = false := by
  rw [lookup, List.find?_map, Option.map_eq_some_iff]
  constructor
  · rintro ⟨ns, found, rfl⟩
    obtain ⟨held, before, after, whole, passed⟩ := List.find?_eq_some_iff_append.mp found
    exact ⟨before, ns, after, whole, rfl, held, by simpa using passed⟩
  · rintro ⟨before, ns, after, whole, rfl, held, passed⟩
    exact ⟨ns, List.find?_eq_some_iff_append.mpr ⟨held, before, after, whole, by simpa using passed⟩, rfl⟩

theorem lookup_eq_none {key : Option Text} {namespaces : List Text} :
    theme.lookup key namespaces = none ↔
      ∀ ns ∈ namespaces, theme.contains (tokenName ns key) = false := by
  simp [lookup]

/-- A key without points stands in the name of its token as it is. -/
theorem tokenName_part {ns key : Text} (other : key ≠ defaultKey) (pointless : '.' ∉ key) :
    tokenName ns (some key) = ns ++ '-' :: key := by
  rw [tokenName, if_neg other, replace_absent pointless]

namespace InStep

theorem contains_eq_isSome (inStep : InStep theme) (name : Text) :
    theme.contains name = (theme.get? name).isSome := by
  rw [Bool.eq_iff_iff, inStep.contains_iff, Option.isSome_iff_exists]
  exact exists_congr fun value => inStep.get_eq_some.symm

/-- In one namespace the value is that of the name that is asked for. -/
theorem resolveValue_single (inStep : InStep theme) (ns : Text) (key : Option Text) :
    theme.resolveValue key [ns] = theme.get? (tokenName ns key) := by
  rw [resolveValue, lookup, List.map_singleton, List.find?_singleton, inStep.contains_eq_isSome]
  cases held : theme.get? (tokenName ns key) <;> simp [held]

/-- What a namespace lists under a key that is not the default one. -/
theorem mem_namespaceEntries (inStep : InStep theme) {ns key value : Text} (other : key ≠ defaultKey)
    (some_left : key ≠ []) :
    (key, value) ∈ theme.namespaceEntries ns ↔ theme.get? (ns ++ '-' :: key) = some value := by
  rw [inStep.get_eq_some, namespaceEntries, List.mem_filterMap]
  constructor
  · rintro ⟨⟨name, held⟩, member, listed⟩
    obtain ⟨known, rfl⟩ := namespace_eq_some.mp listed
    cases known with
    | default => exact absurd rfl other
    | part => exact member
  · intro member
    exact ⟨_, member, namespace_eq_some.mpr ⟨.part some_left, rfl⟩⟩

/-- So a look-up in the list finds what the index finds, although the default key may stand in it twice. -/
theorem lookup_namespaceEntries (inStep : InStep theme) (ns : Text) {key : Text}
    (other : key ≠ defaultKey) (some_left : key ≠ []) :
    (theme.namespaceEntries ns).lookup key = theme.get? (ns ++ '-' :: key) := by
  have known (value : Text) : (key, value) ∈ theme.namespaceEntries ns ↔
      theme.get? (ns ++ '-' :: key) = some value := inStep.mem_namespaceEntries other some_left
  cases listed : (theme.namespaceEntries ns).lookup key with
  | some value =>
    obtain ⟨before, after, whole, -⟩ := List.lookup_eq_some_iff.mp listed
    exact ((known value).mp (by simp [whole])).symm
  | none =>
    refine (Option.eq_none_iff_forall_ne_some.mpr fun value held => ?_).symm
    simpa using List.lookup_eq_none_iff.mp listed _ ((known value).mpr held)

end InStep

/-- The token that a namespace has for a key: the one it lists under the key, or the token named
like the namespace where no key or the default one is asked for. -/
inductive Stored (theme : Theme) (ns : Text) : Option Text → Text → Text → Prop
  | listed {key value : Text} (other : key ≠ defaultKey)
    (member : (key, value) ∈ theme.namespaceEntries ns) : Stored theme ns (some key) (ns ++ '-' :: key) value
  | whole {value : Text} (held : theme.get? ns = some value) : Stored theme ns none ns value
  | default {value : Text} (held : theme.get? ns = some value) : Stored theme ns (some defaultKey) ns value

theorem Stored.mem_entries {theme : Theme} {ns key name value : Text} (stored : theme.Stored ns (some key) name value)
    (other : key ≠ defaultKey) : (key, value) ∈ theme.namespaceEntries ns := by
  cases stored with
  | listed _ member => exact member
  | default => exact absurd rfl other

/-- A key that can be listed and asked for by one spelling: not empty and without points. -/
def Askable (key : Option Text) : Prop := ∀ k ∈ key, k ≠ [] ∧ '.' ∉ k

namespace InStep

theorem stored_iff (inStep : InStep theme) {ns name value : Text} {key : Option Text}
    (askable : Askable key) :
    theme.Stored ns key name value ↔ tokenName ns key = name ∧ theme.get? name = some value := by
  rcases key with _ | key
  · constructor
    · rintro ⟨⟩
      exact ⟨rfl, by assumption⟩
    · rintro ⟨rfl, held⟩
      exact .whole held
  · obtain ⟨some_left, pointless⟩ := askable key rfl
    by_cases default : key = defaultKey
    · subst default
      constructor
      · intro stored
        cases stored with
        | listed other => exact absurd rfl other
        | default held => exact ⟨rfl, held⟩
      · rintro ⟨rfl, held⟩
        exact .default held
    · rw [tokenName_part default pointless]
      constructor
      · intro stored
        cases stored with
        | listed other member => exact ⟨rfl, (inStep.mem_namespaceEntries default some_left).mp member⟩
        | default => exact absurd rfl default
      · rintro ⟨rfl, held⟩
        exact .listed default ((inStep.mem_namespaceEntries default some_left).mpr held)

theorem not_stored_iff (inStep : InStep theme) {ns : Text} {key : Option Text} (askable : Askable key) :
    (∀ name value, ¬ theme.Stored ns key name value) ↔ theme.contains (tokenName ns key) = false := by
  rw [inStep.contains_eq_isSome, Option.isSome_eq_false_iff, Option.isNone_iff_eq_none,
    Option.eq_none_iff_forall_ne_some]
  simp only [inStep.stored_iff askable]
  constructor
  · intro absent value held
    exact absent _ value ⟨rfl, held⟩
  · rintro absent _ value ⟨rfl, held⟩
    exact absent value held

end InStep

end

/-- After any changes, asking a namespace for a key gives the value that the namespace lists under
it, the namespace itself stands for no key and for the default one, and of several namespaces the
first one that has a token for the key answers. -/
theorem enumeration_agrees_with_lookup (changes : List Change) :
    let theme := run changes
    (∀ ns key value, key ≠ [] → '.' ∉ key → key ≠ defaultKey →
      (theme.resolveValue (some key) [ns] = some value ↔ (key, value) ∈ theme.namespaceEntries ns)) ∧
    (∀ ns, theme.resolveValue none [ns] = theme.get? ns ∧
      theme.resolveValue (some defaultKey) [ns] = theme.get? ns) ∧
    ∀ key namespaces, Askable key →
      (∀ name value, theme.lookup key namespaces = some name ∧ theme.get? name = some value ↔
        ∃ before ns after, namespaces = before ++ ns :: after ∧ theme.Stored ns key name value ∧
          ∀ other ∈ before, ∀ n v, ¬ theme.Stored other key n v) ∧
      (theme.lookup key namespaces = none ↔
        ∀ ns ∈ namespaces, ∀ name value, ¬ theme.Stored ns key name value) := by
  intro theme
  have inStep : InStep theme := (run_from inStep_empty changes).1
  refine ⟨fun ns key value some_left pointless other => ?_, fun ns => ?_, fun key namespaces askable => ⟨?_, ?_⟩⟩
  · rw [inStep.resolveValue_single, tokenName_part other pointless, inStep.mem_namespaceEntries other some_left]
  · exact ⟨inStep.resolveValue_single ns none, inStep.resolveValue_single ns (some defaultKey)⟩
  · intro name value
    rw [lookup_eq_some]
    constructor
    · rintro ⟨⟨before, ns, after, whole, named, -, passed⟩, held⟩
      exact ⟨before, ns, after, whole, (inStep.stored_iff askable).mpr ⟨named, held⟩,
        fun other member => (inStep.not_stored_iff askable).mpr (passed other member)⟩
    · rintro ⟨before, ns, after, whole, stored, passed⟩
      obtain ⟨named, held⟩ := (inStep.stored_iff askable).mp stored
      have known : theme.contains name = true := by
        rw [inStep.contains_eq_isSome, held]
        rfl
      exact ⟨⟨before, ns, after, whole, named, known,
        fun other member => (inStep.not_stored_iff askable).mp (passed other member)⟩, held⟩
  · rw [lookup_eq_none]
    exact forall₂_congr fun ns _ => (inStep.not_stored_iff askable).symm

/-- Two namespaces of which one begins like the other, after a replacement and an erasure. The
colour is listed under two keys, and the first namespace with a token for the key answers. -/
theorem nested_namespaces_agree :
    let theme := run [.declare "--ring" "1", .declare "--color-red-500" "2", .declare "--color-red" "3",
      .erase "--ring", .declare "--color-red-500" "4"]
    ("500".toList ≠ [] ∧ '.' ∉ "500".toList ∧ "500".toList ≠ defaultKey) ∧
    ("500".toList, "4".toList) ∈ theme.namespaceEntries "--color-red" ∧
    theme.resolveValue (some "500") ["--color-red"] = some "4" ∧
    Askable (some "red-500") ∧
    theme.lookup (some "red-500") ["--ring", "--color"] = some "--color-red-500" := by
  intro theme
  have proper : "500".toList ≠ [] ∧ '.' ∉ "500".toList ∧ "500".toList ≠ defaultKey := by decide
  have askable : Askable (some "red-500") := by
    rintro k ⟨⟩
    decide
  obtain ⟨listed, -, several⟩ := enumeration_agrees_with_lookup
    [.declare "--ring" "1", .declare "--color-red-500" "2", .declare "--color-red" "3",
      .erase "--ring", .declare "--color-red-500" "4"]
  have member : ("500".toList, "4".toList) ∈ theme.namespaceEntries "--color-red" := by decide
  refine ⟨proper, member, (listed _ _ _ proper.1 proper.2.1 proper.2.2).mpr member, askable, ?_⟩
  have stored : theme.Stored "--color" (some "red-500") "--color-red-500" "4" :=
    .listed (by decide) (by decide)
  have erased : theme.namespaceEntries "--ring" = [] := by decide
  refine (((several _ _ askable).1 _ _).mpr ⟨["--ring"], "--color", [], rfl, stored, ?_⟩).1
  intro other member n v found
  obtain rfl := List.mem_singleton.mp member
  have held := found.mem_entries (by decide)
  rw [erased] at held
  cases held

end AtomicCss.Theme
