import AtomicCss.Proofs.Text.Cut
import AtomicCss.Theme.Source
import Mathlib.Data.List.Nodup

/-! A theme is an ordered map. Whatever is declared, erased and taken over from
style sheets, the theme holds the tokens that a plain list of names and values
would hold after the same changes, and every look-up answers as that list does.
What carries this through a run is that the index points at exactly the entry of
each name. -/
namespace AtomicCss.Theme
open Text

/-- Every name stands once, and the index has its place. -/
structure InStep (theme : Theme) : Prop where
  unique : (theme.entries.map Prod.fst).Nodup
  index : ∀ name place, theme.index.lookup name = some place ↔
    ∃ value, theme.entries[place]? = some (name, value)

theorem lookup_eq_some_of_unique {α : Type} {l : List (Text × α)} (unique : (l.map Prod.fst).Nodup)
    {name : Text} {a : α} : l.lookup name = some a ↔ (name, a) ∈ l := by
  induction l with
  | nil => simp
  | cons e l ih =>
    obtain ⟨n, b⟩ := e
    obtain ⟨first, later⟩ := List.nodup_cons.mp unique
    by_cases same : name = n
    · subst same
      have absent : (name, a) ∉ l := fun member => first (List.mem_map.mpr ⟨_, member, rfl⟩)
      simp [absent, eq_comm]
    · have other : (name == n) = false := by simpa using same
      rw [List.lookup_cons, other, List.mem_cons]
      simp [ih later, same]

theorem named_iff {entries : List (Text × Text)} {name : Text} {place : Nat} :
    (∃ value, entries[place]? = some (name, value)) ↔ (entries.map Prod.fst)[place]? = some name := by
  simp

theorem getElem?_concat_iff {α : Type} {l : List α} {a b : α} {i : Nat} :
    (l ++ [a])[i]? = some b ↔ l[i]? = some b ∨ i = l.length ∧ a = b := by
  rcases Nat.lt_trichotomy i l.length with front | rfl | behind
  · simp [List.getElem?_append_left front, Nat.ne_of_lt front]
  · simp
  · have outside : (l ++ [a])[i]? = none := by
      apply List.getElem?_eq_none
      rw [List.length_append]
      exact behind
    have outside' : l[i]? = none := List.getElem?_eq_none (Nat.le_of_lt behind)
    simp [outside, outside', Nat.ne_of_gt behind]

theorem lookup_places {entries : List (Text × Text)} (unique : (entries.map Prod.fst).Nodup)
    (name : Text) (place : Nat) : (places entries).lookup name = some place ↔
      ∃ value, entries[place]? = some (name, value) := by
  have names : (places entries).map Prod.fst = (entries.map Prod.fst).reverse := by
    rw [places, List.map_reverse, List.map_map]
    congr 1
    apply List.ext_getElem
    · simp
    · intro i _ _
      simp
  rw [lookup_eq_some_of_unique (by rw [names]; exact List.nodup_reverse.mpr unique)]
  simp only [places, List.mem_reverse, List.mem_map, Prod.mk.injEq]
  constructor
  · rintro ⟨⟨entry, i⟩, member, rfl, rfl⟩
    exact ⟨entry.2, List.mem_zipIdx_iff_getElem?.mp member⟩
  · rintro ⟨value, found⟩
    exact ⟨((name, value), place), List.mem_zipIdx_iff_getElem?.mpr found, rfl, rfl⟩

theorem inStep_empty : InStep empty :=
  ⟨List.nodup_nil, by simp [empty]⟩

namespace InStep

variable {theme : Theme}

theorem get_eq_some (inStep : InStep theme) {name value : Text} :
    theme.get? name = some value ↔ (name, value) ∈ theme.entries := by
  unfold get?
  constructor
  · intro found
    obtain ⟨place, known, there⟩ := Option.bind_eq_some_iff.mp found
    obtain ⟨held, there'⟩ := (inStep.index name place).mp known
    obtain rfl : held = value := by simpa [there'] using there
    exact List.mem_of_getElem? there'
  · intro member
    obtain ⟨place, there⟩ := List.getElem?_of_mem member
    have known := (inStep.index name place).mpr ⟨value, there⟩
    simp [known, there]

theorem contains_iff (inStep : InStep theme) {name : Text} :
    theme.contains name = true ↔ ∃ value, (name, value) ∈ theme.entries := by
  rw [contains, Option.isSome_iff_exists]
  constructor
  · rintro ⟨place, known⟩
    obtain ⟨value, there⟩ := (inStep.index name place).mp known
    exact ⟨value, List.mem_of_getElem? there⟩
  · rintro ⟨value, member⟩
    obtain ⟨place, there⟩ := List.getElem?_of_mem member
    exact ⟨place, (inStep.index name place).mpr ⟨value, there⟩⟩

theorem filter (inStep : InStep theme) (keep : Text → Bool) : InStep (theme.filter keep) := by
  have unique : ((theme.entries.filter fun entry => keep entry.1).map Prod.fst).Nodup :=
    inStep.unique.sublist (List.filter_sublist.map Prod.fst)
  exact ⟨unique, lookup_places unique⟩

/-- Where a name is, its entry can be taken out of the list. -/
theorem split (inStep : InStep theme) {name : Text} {place : Nat}
    (known : theme.index.lookup name = some place) : ∃ before held after,
      theme.entries = before ++ (name, held) :: after ∧
        ∀ value, (theme.insert name value).entries = before ++ (name, value) :: after := by
  obtain ⟨held, there⟩ := (inStep.index name place).mp known
  obtain ⟨inside, same⟩ := List.getElem?_eq_some_iff.mp there
  refine ⟨theme.entries.take place, held, theme.entries.drop (place + 1), ?_, fun value => ?_⟩
  · rw [← same, List.getElem_cons_drop, List.take_append_drop]
  · simp [insert, known, List.modify_eq_take_cons_drop inside, same]

theorem absent (inStep : InStep theme) {name : Text} (unknown : theme.index.lookup name = none) :
    name ∉ theme.entries.map Prod.fst := by
  intro member
  obtain ⟨⟨n, value⟩, held, rfl⟩ := List.mem_map.mp member
  obtain ⟨place, there⟩ := List.getElem?_of_mem held
  rw [(inStep.index n place).mpr ⟨value, there⟩] at unknown
  cases unknown

/-- What is known of the names is known of the theme. -/
theorem of_names (unique : (theme.entries.map Prod.fst).Nodup)
    (index : ∀ name place, theme.index.lookup name = some place ↔
      (theme.entries.map Prod.fst)[place]? = some name) : InStep theme :=
  ⟨unique, fun name place => (index name place).trans named_iff.symm⟩

theorem index_names (inStep : InStep theme) (name : Text) (place : Nat) :
    theme.index.lookup name = some place ↔ (theme.entries.map Prod.fst)[place]? = some name :=
  (inStep.index name place).trans named_iff

/-- A known name keeps its place. -/
theorem insert_known (inStep : InStep theme) {name : Text} {place : Nat}
    (known : theme.index.lookup name = some place) (value : Text) : InStep (theme.insert name value) := by
  obtain ⟨before, held, after, whole, changed⟩ := inStep.split known
  have names : (theme.insert name value).entries.map Prod.fst = theme.entries.map Prod.fst := by
    rw [changed, whole]
    simp
  have index : (theme.insert name value).index = theme.index := by simp [Theme.insert, known]
  apply of_names
  · rw [names]
    exact inStep.unique
  · rw [names, index]
    exact inStep.index_names

/-- A new name comes last. -/
theorem insert_new (inStep : InStep theme) {name : Text} (unknown : theme.index.lookup name = none)
    (value : Text) : InStep (theme.insert name value) := by
  have new := inStep.absent unknown
  have names : (theme.insert name value).entries.map Prod.fst = theme.entries.map Prod.fst ++ [name] := by
    simp [Theme.insert, unknown]
  have index : (theme.insert name value).index = (name, theme.size) :: theme.index := by
    simp [Theme.insert, unknown]
  apply of_names
  · rw [names, ← List.concat_eq_append]
    exact inStep.unique.concat new
  · intro n place
    rw [names, index, List.lookup_cons, getElem?_concat_iff, List.length_map]
    by_cases same : n = name
    · subst same
      have nowhere : (theme.entries.map Prod.fst)[place]? ≠ some n := fun there =>
        new (List.mem_of_getElem? there)
      rw [or_iff_right nowhere]
      simp [size, eq_comm]
    · have other : (n == name) = false := by simpa using same
      simp [other, inStep.index_names, Ne.symm same]

theorem insert (inStep : InStep theme) (name value : Text) : InStep (theme.insert name value) := by
  cases known : theme.index.lookup name with
  | some place => exact inStep.insert_known known value
  | none => exact inStep.insert_new known value

theorem declare (inStep : InStep theme) (name value : Text) : InStep (theme.declare name value) := by
  unfold Theme.declare
  dsimp only
  split
  · split
    · exact inStep_empty
    · split
      · exact inStep.filter _
      · exact inStep.filter _
  · exact inStep.insert name _

theorem apply (inStep : InStep theme) (css : Text) : InStep (theme.apply css) := by
  unfold Theme.apply
  induction (blocks css).flatMap declarations generalizing theme with
  | nil => exact inStep
  | cons d declared ih => exact ih (inStep.declare d.1 d.2)

end InStep

/-- A change of a theme. -/
inductive Change where
  | declare (name value : Text)
  | erase (name : Text)
  | eraseNamespace (ns : Text)
  | apply (css : Text)

def change (theme : Theme) : Change → Theme
  | .declare name value => theme.declare name value
  | .erase name => theme.erase name
  | .eraseNamespace ns => theme.eraseNamespace ns
  | .apply css => theme.apply css

/-- The theme after all changes of an empty one. -/
def run (changes : List Change) : Theme := changes.foldl change empty

theorem inStep_change {theme : Theme} (inStep : InStep theme) (c : Change) :
    InStep (theme.change c) := by
  cases c with
  | declare name value => exact inStep.declare name value
  | erase name => exact inStep.filter (· != name)
  | eraseNamespace ns => exact inStep.filter fun name => !inNamespace ns name
  | apply css => exact inStep.apply css

/-! The same changes of a plain list. -/

namespace Plain

/-- The value of a name is replaced in its place, and a new name comes last. -/
def put (name value : Text) : List (Text × Text) → List (Text × Text)
  | [] => [(name, value)]
  | (n, v) :: l => if n = name then (name, value) :: l else (n, v) :: put name value l

def erase (name : Text) (l : List (Text × Text)) : List (Text × Text) :=
  l.filter fun entry => entry.1 ≠ name

/-- Without the name of the namespace and the names that begin with it and a dash. -/
def eraseNamespace (ns : Text) (l : List (Text × Text)) : List (Text × Text) :=
  l.filter fun entry => ¬ (entry.1 = ns ∨ ns ++ ['-'] <+: entry.1)

def declare (name value : Text) (l : List (Text × Text)) : List (Text × Text) :=
  if trim value ≠ "initial" then put name (trim value) l
  else if name = "--*" then []
  else if ['-', '*'] <:+ name then eraseNamespace name.dropLast.dropLast l
  else erase name l

def change (l : List (Text × Text)) : Change → List (Text × Text)
  | .declare name value => declare name value l
  | .erase name => erase name l
  | .eraseNamespace ns => eraseNamespace ns l
  | .apply css => ((blocks css).flatMap declarations).foldl (fun l d => declare d.1 d.2 l) l

/-- The list after all changes of the empty one. -/
def run (changes : List Change) : List (Text × Text) := changes.foldl change []

theorem put_present {before after : List (Text × Text)} {name held : Text} (value : Text)
    (first : name ∉ before.map Prod.fst) :
    put name value (before ++ (name, held) :: after) = before ++ (name, value) :: after := by
  induction before with
  | nil => simp [put]
  | cons e before ih =>
    obtain ⟨other, later⟩ := not_or.mp (mt List.mem_cons.mpr first)
    simp [put, Ne.symm other, ih later]

theorem put_absent {l : List (Text × Text)} {name : Text} (value : Text)
    (new : name ∉ l.map Prod.fst) : put name value l = l ++ [(name, value)] := by
  induction l with
  | nil => rfl
  | cons e l ih =>
    obtain ⟨other, later⟩ := not_or.mp (mt List.mem_cons.mpr new)
    simp [put, Ne.symm other, ih later]

end Plain

section

variable {theme : Theme}

theorem entries_insert (inStep : InStep theme) (name value : Text) :
    (theme.insert name value).entries = Plain.put name value theme.entries := by
  cases known : theme.index.lookup name with
  | some place =>
    obtain ⟨before, held, after, whole, changed⟩ := inStep.split known
    have first : name ∉ before.map Prod.fst := by
      have unique := inStep.unique
      rw [whole, List.map_append, List.nodup_append] at unique
      exact fun member => unique.2.2 name member name (by simp) rfl
    rw [changed, whole, Plain.put_present value first]
  | none =>
    rw [Plain.put_absent value (inStep.absent known)]
    simp [insert, known]

theorem entries_erase (theme : Theme) (name : Text) :
    (theme.erase name).entries = Plain.erase name theme.entries := by
  apply List.filter_congr
  intro entry _
  apply Bool.eq_iff_iff.mpr
  simp

theorem entries_eraseNamespace (theme : Theme) (ns : Text) :
    (theme.eraseNamespace ns).entries = Plain.eraseNamespace ns theme.entries := by
  apply List.filter_congr
  intro entry _
  apply Bool.eq_iff_iff.mpr
  simp [inNamespace, ← List.isPrefixOf_iff_prefix]

theorem entries_declare (inStep : InStep theme) (name value : Text) :
    (theme.declare name value).entries = Plain.declare name value theme.entries := by
  unfold declare Plain.declare
  dsimp only
  by_cases initial : trim value = "initial"
  · rw [if_pos initial, if_neg (not_not.mpr initial)]
    by_cases all : name = "--*"
    · rw [if_pos all, if_pos all]
      rfl
    · rw [if_neg all, if_neg all]
      by_cases space : ['-', '*'] <:+ name
      · obtain ⟨ns, rfl⟩ := space
        have cut : stripEnd? ['-', '*'] (ns ++ ['-', '*']) = some ns := stripEnd_eq_some.mpr rfl
        rw [if_pos ⟨ns, rfl⟩, show ("-*" : Text) = ['-', '*'] from rfl, cut]
        simp [entries_eraseNamespace, List.dropLast_append_of_ne_nil]
      · rw [if_neg space, show ("-*" : Text) = ['-', '*'] from rfl, stripEnd_eq_none space]
        exact entries_erase theme name
  · rw [if_neg initial, if_pos initial]
    exact entries_insert inStep name _

theorem entries_change (inStep : InStep theme) (c : Change) :
    (theme.change c).entries = Plain.change theme.entries c := by
  cases c with
  | declare name value => exact entries_declare inStep name value
  | erase name => exact entries_erase theme name
  | eraseNamespace ns => exact entries_eraseNamespace theme ns
  | apply css =>
    rw [change, Plain.change, Theme.apply]
    induction (blocks css).flatMap declarations generalizing theme with
    | nil => rfl
    | cons d declared ih =>
      rw [List.foldl_cons, List.foldl_cons, ih (inStep.declare d.1 d.2), entries_declare inStep]

end

/-- What one change keeps, a run keeps. -/
theorem run_from {theme : Theme} (inStep : InStep theme) (changes : List Change) :
    InStep (changes.foldl change theme) ∧
      (changes.foldl change theme).entries = changes.foldl Plain.change theme.entries := by
  induction changes generalizing theme with
  | nil => exact ⟨inStep, rfl⟩
  | cons c changes ih =>
    rw [List.foldl_cons, List.foldl_cons, ← entries_change inStep c]
    exact ih (inStep_change inStep c)

/-- The key of a name in a namespace: what follows the namespace and a dash, or the default
key for the name of the namespace itself. -/
inductive KeyIn (ns : Text) : Text → Text → Prop
  | default : KeyIn ns ns defaultKey
  | part {key : Text} (some_left : key ≠ []) : KeyIn ns (ns ++ '-' :: key) key

/-- The second list has the tokens of a namespace that the first one has, in their order and
with their keys for names. -/
inductive Lists (ns : Text) : List (Text × Text) → List (Text × Text) → Prop
  | nil : Lists ns [] []
  | listed {name key value : Text} {l keys : List (Text × Text)} (known : KeyIn ns name key)
    (later : Lists ns l keys) : Lists ns ((name, value) :: l) ((key, value) :: keys)
  | passed {name value : Text} {l keys : List (Text × Text)} (other : ∀ key, ¬ KeyIn ns name key)
    (later : Lists ns l keys) : Lists ns ((name, value) :: l) keys

theorem namespace_eq_some {ns name value key held : Text} : Theme.namespace? ns (name, value) =
    some (key, held) ↔ KeyIn ns name key ∧ held = value := by
  unfold Theme.namespace?
  constructor
  · intro found
    split at found
    · rename_i same
      cases found
      exact ⟨same ▸ .default, rfl⟩
    · split at found
      · rename_i c rest cut
        cases found
        have whole := stripStart_eq_some.mp cut
        dsimp only at whole
        rw [whole, List.append_assoc]
        exact ⟨.part (by simp), rfl⟩
      · cases found
  · rintro ⟨known, rfl⟩
    cases known with
    | default => simp
    | part some_left =>
      obtain ⟨c, rest, rfl⟩ := List.exists_cons_of_ne_nil some_left
      have cut : stripStart? (ns ++ ['-']) (ns ++ '-' :: c :: rest) = some (c :: rest) :=
        stripStart_eq_some.mpr (by simp)
      simp [cut]

theorem lists_namespace (ns : Text) (l : List (Text × Text)) : Lists ns l (l.filterMap (namespace? ns)) := by
  induction l with
  | nil => exact .nil
  | cons entry l ih =>
    obtain ⟨name, value⟩ := entry
    rw [List.filterMap_cons]
    cases found : namespace? ns (name, value) with
    | none =>
      refine .passed (fun key known => ?_) ih
      rw [namespace_eq_some.mpr ⟨known, rfl⟩] at found
      cases found
    | some token =>
      obtain ⟨key, held⟩ := token
      obtain ⟨known, rfl⟩ := namespace_eq_some.mp found
      exact .listed known ih

/-- The theme holds the tokens of a list, and answers as the list does. -/
structure Agrees (theme : Theme) (l : List (Text × Text)) : Prop where
  unique : (l.map Prod.fst).Nodup
  entries : theme.entries = l
  size : theme.size = l.length
  isEmpty : theme.isEmpty = true ↔ l = []
  get : ∀ name value, theme.get? name = some value ↔ (name, value) ∈ l
  contains : ∀ name, theme.contains name = true ↔ ∃ value, (name, value) ∈ l
  namespaceEntries : ∀ ns, Lists ns l (theme.namespaceEntries ns)
  index : ∀ name place, theme.index.lookup name = some place ↔ ∃ value, l[place]? = some (name, value)

/-- After any changes a theme is the ordered map that a plain list is after the same changes.
The beginning of a run is a run, so this holds at every point of it. -/
theorem run_agrees (changes : List Change) : Agrees (run changes) (Plain.run changes) := by
  obtain ⟨inStep, entries⟩ : InStep (run changes) ∧ (run changes).entries = Plain.run changes :=
    run_from inStep_empty changes
  rw [← entries]
  exact {
    unique := inStep.unique
    entries := rfl
    size := rfl
    isEmpty := List.isEmpty_iff
    get := fun name value => inStep.get_eq_some
    contains := fun name => inStep.contains_iff
    namespaceEntries := fun ns => lists_namespace ns (run changes).entries
    index := inStep.index }

end AtomicCss.Theme
