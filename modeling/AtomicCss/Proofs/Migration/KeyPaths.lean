import AtomicCss.Proofs.Migration.CallReplacement
import AtomicCss.Proofs.Text.Quoted
import AtomicCss.Proofs.Value.Marks

/-! Paths with a key in brackets, such as `spacing[2]`, against the look-up of that key in the
namespace of the path. Both put a dash and the key behind the namespace, and both read the
default key as the namespace itself. They differ on points: the look-up writes an underscore for
each, and a path is cut there. -/
namespace AtomicCss.Migration
open Text Value

/-- A text of letters, digits, dashes and points. -/
def KeyLike (key : Text) : Prop := ∀ c ∈ key, c.isAlphanum = true ∨ c = '-' ∨ c = '.'

/-- A path with a key in brackets. -/
def bracketedPath (root key : Text) : Text := root ++ '[' :: (key ++ [']'])

/-- What the parts of a path add to its namespace. -/
def dashed (parts : List Text) : Text :=
  (parts.filter (· != Theme.defaultKey)).flatMap fun p => '-' :: p

section

variable {theme : Theme} {root ns key token : Text}

theorem KeyLike.nameLike (plain : KeyLike key) : NameLike key := by
  intro c member
  rcases plain c member with letter | rfl | rfl
  · simp [Text.isNameChar, letter]
  · rfl
  · rfl

theorem KeyLike.underscore_not_mem (plain : KeyLike key) : '_' ∉ key := by
  intro member
  rcases plain '_' member with same | same | same <;> cases same

/-- The first part of a path is a word of letters. -/
theorem root_letters (known : (root, ns) ∈ pathRoots) : root ≠ [] ∧ ∀ c ∈ root, c.isAlpha = true := by
  have letters : (pathRoots.all fun entry => !entry.1.isEmpty && entry.1.all Char.isAlpha) = true := rfl
  have word := List.all_eq_true.mp letters _ known
  rw [Bool.and_eq_true] at word
  exact ⟨by simpa using word.1, List.all_eq_true.mp word.2⟩

theorem root_nameLike (known : (root, ns) ∈ pathRoots) : NameLike root := fun c member => by
  simp [Text.isNameChar, Char.isAlphanum, (root_letters known).2 c member]

theorem root_other (known : (root, ns) ∈ pathRoots) {c : Char} (other : c.isAlpha = false) : c ∉ root := by
  intro member
  rw [(root_letters known).2 c member] at other
  cases other

theorem mem_bracketedPath (known : (root, ns) ∈ pathRoots) (plain : KeyLike key) {c : Char}
    (member : c ∈ bracketedPath root key) : Text.isNameChar c = true ∨ c = '[' ∨ c = ']' := by
  rcases List.mem_append.mp member with first | rest
  · exact .inl (root_nameLike known c first)
  · rcases List.mem_cons.mp rest with rfl | rest
    · exact .inr (.inl rfl)
    · rcases List.mem_append.mp rest with inside | last
      · exact .inl (plain.nameLike c inside)
      · exact .inr (.inr (List.mem_singleton.mp last))

theorem pathParts_keyLike (plain : KeyLike key) :
    pathParts key = (fields '.' key).filter fun p => !p.isEmpty := by
  rw [pathParts, replace_absent (plain.nameLike.not_mem rfl), replace_absent (plain.nameLike.not_mem rfl)]

/-- A key in brackets is cut as it is cut alone. -/
theorem pathParts_bracketed (known : (root, ns) ∈ pathRoots) (plain : KeyLike key) :
    pathParts (bracketedPath root key) = root :: pathParts key := by
  have letters := root_nameLike known
  have opened : replace '[' "." (bracketedPath root key) = root ++ '.' :: (key ++ [']']) := by
    rw [bracketedPath, replace_append, replace_absent (letters.not_mem rfl), replace_here, replace_append,
      replace_absent (plain.nameLike.not_mem rfl)]
    rfl
  have closed : replace ']' [] (root ++ '.' :: (key ++ [']'])) = root ++ '.' :: key := by
    rw [replace_append, replace_absent (letters.not_mem rfl), replace_other ']' [] (by decide), replace_append,
      replace_absent (plain.nameLike.not_mem rfl), replace_here, replace_nil, List.append_nil, List.append_nil]
  rw [pathParts_keyLike plain, pathParts, opened, closed, fields_first (root_other known rfl),
    List.filter_cons_of_pos (by simpa using (root_letters known).1)]

/-- The path names what its key adds to the namespace. -/
theorem names_bracketed (known : (root, ns) ∈ pathRoots) (plain : KeyLike key) :
    Names theme (bracketedPath root key) token ↔
      token = ns ++ dashed (pathParts key) ∧ theme.contains token = true := by
  have unique : (pathRoots.map Prod.fst).Nodup := by decide
  have undashed : ¬ "--".toList <+: bracketedPath root key := by
    obtain ⟨c, letters, same⟩ := List.exists_cons_of_ne_nil (root_letters known).1
    rintro ⟨rest, whole⟩
    have first : '-' = c := by
      rw [bracketedPath, same] at whole
      exact (List.cons.inj whole).1
    rw [same, ← first] at known
    exact root_other known (c := '-') rfl List.mem_cons_self
  rw [Names, pathParts_bracketed known plain]
  constructor
  · rintro ⟨-, root', parts, ns', parted, known', held, rfl⟩
    obtain ⟨rfl, rfl⟩ := List.cons.inj parted
    have same := (Theme.lookup_eq_some_of_unique unique).mpr known
    rw [(Theme.lookup_eq_some_of_unique unique).mpr known'] at same
    cases same
    exact ⟨rfl, held⟩
  · rintro ⟨rfl, held⟩
    exact ⟨undashed, root, pathParts key, ns, rfl, known, held, rfl⟩

/-- A path with a key in brackets asks for a token without a modifier. -/
theorem asks_bracketed (known : (root, ns) ∈ pathRoots) (plain : KeyLike key) {modifier : Option Text} :
    Asks theme (bracketedPath root key) token modifier ↔
      modifier = none ∧ token = ns ++ dashed (pathParts key) ∧ theme.contains token = true := by
  have visible : ∀ c ∈ bracketedPath root key, isBlank c = false := fun c member => by
    rcases mem_bracketedPath known plain member with letter | rfl | rfl
    · exact visible_of_isNameChar letter
    · rfl
    · rfl
  have trimmed : trim (bracketedPath root key) = bracketedPath root key :=
    trim_eq_self (fun c head => visible c (List.mem_of_mem_head? head))
      (fun c last => visible c (List.mem_of_getLast? last))
  have slash : '/' ∉ bracketedPath root key := fun member => by
    rcases mem_bracketedPath known plain member with letter | same | same
    · cases letter
    · cases same
    · cases same
  constructor
  · intro asked
    cases asked with
    | token named =>
      rw [trimmed, names_bracketed known plain] at named
      exact ⟨rfl, named⟩
    | modified _ cut =>
      rw [trimmed] at cut
      exact absurd (by simp [cut]) slash
  · rintro ⟨rfl, named⟩
    apply Asks.token
    rwa [trimmed, names_bracketed known plain]

theorem complete_bracketed (known : (root, ns) ∈ pathRoots) (plain : KeyLike key) :
    Complete (bracketedPath root key) := by
  have unmarked : ∀ c ∈ bracketedPath root key, isMark c = false := fun c member => by
    rcases mem_bracketedPath known plain member with letter | rfl | rfl
    · exact unmarked_of_neutral (neutral_of_isNameChar letter)
    · rfl
    · rfl
  have nothing : Complete [] := rfl
  have same : marks (bracketedPath root key) = marks [] := marks_eq_nil unmarked
  exact complete_of_marks same (by simp) nothing

/-- The call becomes a reference exactly to the token that its path names. -/
theorem migrated_bracketed (known : (root, ns) ∈ pathRoots) (plain : KeyLike key) :
    migrateValue theme .declaration ("theme(".toList ++ (bracketedPath root key ++ [')'])) =
      "var(".toList ++ (token ++ [')']) ↔
      token = ns ++ dashed (pathParts key) ∧ theme.contains token = true := by
  have complete := complete_bracketed known plain
  constructor
  · intro same
    cases request : request? theme (bracketedPath root key) with
    | none =>
      have kept := migrateValue_unasked .declaration complete request
      rw [kept] at same
      cases same
    | some found =>
      obtain ⟨token', modifier⟩ := found
      have asked := request_eq_some.mp request
      obtain ⟨rfl, named⟩ := (asks_bracketed known plain).mp asked
      rw [migrateValue_call .declaration complete asked] at same
      have written : "var(".toList ++ (token' ++ [')']) = "var(".toList ++ (token ++ [')']) := same
      obtain rfl := List.append_cancel_right (List.append_cancel_left written)
      exact named
  · intro named
    exact migrateValue_call .declaration complete ((asks_bracketed known plain).mpr ⟨rfl, named⟩)

theorem mem_of_mem_dashed {parts : List Text} {c : Char} (member : c ∈ dashed parts) : c = '-' ∨ c ∈ parts.flatten := by
  obtain ⟨p, part, inside⟩ := List.mem_flatMap.mp member
  rcases List.mem_cons.mp inside with rfl | inside
  · exact .inl rfl
  · exact .inr (List.mem_flatten.mpr ⟨p, (List.mem_filter.mp part).1, inside⟩)

/-- The look-up and the path name the same token exactly if the key is one part. -/
theorem tokenName_eq_iff (plain : KeyLike key) :
    Theme.tokenName ns (some key) = ns ++ dashed (pathParts key) ↔ key ≠ [] ∧ '.' ∉ key := by
  constructor
  · intro same
    have other : key ≠ Theme.defaultKey → '-' :: replace '.' "_" key = dashed (pathParts key) := fun other => by
      simpa [Theme.tokenName, other] using same
    refine ⟨?_, fun point => ?_⟩
    · rintro rfl
      have nothing := other nofun
      cases nothing
    · -- The look-up writes an underscore, and the path has none.
      have written : '_' ∈ '-' :: replace '.' "_" key :=
        List.mem_cons_of_mem _ ((infix_replace_image "_" point).subset (by simp))
      have default : key ≠ Theme.defaultKey := by
        rintro rfl
        exact absurd point (by decide)
      rw [other default] at written
      rcases mem_of_mem_dashed written with same | inside
      · cases same
      · rw [pathParts_keyLike plain, List.flatten_filter_not_isEmpty, fields, splitWhere_flatten] at inside
        exact plain.underscore_not_mem (List.mem_filter.mp inside).1
  · rintro ⟨some_key, whole⟩
    have parts : pathParts key = [key] := by
      rw [pathParts_keyLike plain, fields_absent whole, List.filter_cons_of_pos (by simpa using some_key)]
      rfl
    rw [parts, Theme.tokenName, dashed]
    by_cases default : key = Theme.defaultKey
    · simp [default]
    · simp [default, replace_absent whole]

theorem lookup_single {name : Text} : theme.lookup (some key) [ns] = some name ↔
    name = Theme.tokenName ns (some key) ∧ theme.contains name = true := by
  rw [Theme.lookup, List.map_singleton, List.find?_singleton]
  constructor
  · intro found
    split at found
    · rename_i held
      cases found
      exact ⟨rfl, held⟩
    · cases found
  · rintro ⟨rfl, held⟩
    rw [if_pos held]

/-- A call whose path has a key in brackets becomes the reference to the token that is found for the key exactly if
the key is not empty and has no point. -/
theorem bracketed_key_found_iff (known : (root, ns) ∈ pathRoots) (plain : KeyLike key)
    (found : theme.lookup (some key) [ns] = some token) :
    migrateValue theme .declaration ("theme(".toList ++ (bracketedPath root key ++ [')'])) =
      "var(".toList ++ (token ++ [')']) ↔ key ≠ [] ∧ '.' ∉ key := by
  obtain ⟨named, held⟩ := lookup_single.mp found
  rw [migrated_bracketed known plain, ← tokenName_eq_iff plain, ← named]
  exact and_iff_left held

end

/-- The default key stands for the namespace in both. -/
theorem default_key_found :
    let theme := Theme.empty.insert "--radius" "4px"
    ("borderRadius".toList, "--radius".toList) ∈ pathRoots ∧ KeyLike "DEFAULT" ∧
    theme.lookup (some "DEFAULT") ["--radius"] = some "--radius" ∧
    ("DEFAULT".toList ≠ [] ∧ '.' ∉ "DEFAULT".toList) ∧
    migrateValue theme .declaration "theme(borderRadius[DEFAULT])" = "var(--radius)" := by
  intro theme
  have known : ("borderRadius".toList, "--radius".toList) ∈ pathRoots := by decide
  have plain : KeyLike "DEFAULT" := forall_of_all rfl
  have found : theme.lookup (some "DEFAULT") ["--radius"] = some "--radius" := by decide
  have whole : "DEFAULT".toList ≠ [] ∧ '.' ∉ "DEFAULT".toList := by decide
  exact ⟨known, plain, found, whole, (bracketed_key_found_iff known plain found).mpr whole⟩

/-- A theme with the one token `--spacing-2_5`. -/
def fractionTheme : Theme := Theme.empty.insert "--spacing-2_5" "10px"

/-- A key with a point is found by the look-up alone. -/
theorem fractional_key_lost :
    ("spacing".toList, "--spacing".toList) ∈ pathRoots ∧ KeyLike "2.5" ∧
    fractionTheme.lookup (some "2.5") ["--spacing"] = some "--spacing-2_5" ∧
    migrateValue fractionTheme .declaration "theme(spacing[2.5])" = "theme(spacing[2.5])" := by
  refine ⟨by decide, forall_of_all rfl, by decide, by decide +kernel⟩

end AtomicCss.Migration
