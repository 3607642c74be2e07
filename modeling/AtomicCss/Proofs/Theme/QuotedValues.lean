import AtomicCss.Proofs.Text.Name
import AtomicCss.Proofs.Theme.Blocks

/-! Themes whose values hold quoted strings. A block of declarations is read back as it was written,
token by token, exactly if its strings hold no comment and their braces match: the end of the
block is found by braces alone, and comments are taken out before strings are looked for. Any other
text in a string is data. -/
namespace AtomicCss.Theme
open Text

/-- A part of a value: words and blanks, or a string in double quotes. -/
inductive Piece where
  | plain (t : Text)
  | string (inner : Text)

namespace Piece

def text : Piece → Text
  | plain t => t
  | string inner => '"' :: (inner ++ ['"'])

/-- What stands between the quotes. -/
def contents : Piece → Text
  | plain _ => []
  | string inner => inner

/-- Words have no punctuation that means something in a style sheet. -/
def WellFormed : Piece → Prop
  | plain t => ∀ c ∈ t, c ∉ ";:\x7b\x7d()/*\"'".toList
  | string inner => '"' ∉ inner ∧ '\\' ∉ inner

instance : (p : Piece) → Decidable p.WellFormed
  | plain t => t.decidableBAll _
  | string inner => inferInstanceAs (Decidable ('"' ∉ inner ∧ '\\' ∉ inner))

end Piece

/-- A token as it is declared. -/
structure Token where
  name : Text
  pieces : List Piece

namespace Token

def value (d : Token) : Text := d.pieces.flatMap Piece.text

def strings (d : Token) : Text := d.pieces.flatMap Piece.contents

/-- The name and the value without the semicolon. -/
def declared (d : Token) : Text := d.name ++ ": ".toList ++ d.value

structure WellFormed (d : Token) : Prop where
  dashed : "--".toList <+: d.name
  letters : ∀ c ∈ d.name, c.isLower = true ∨ c.isDigit = true ∨ c = '-'
  pieces : ∀ p ∈ d.pieces, p.WellFormed
  some_value : d.value ≠ []
  kept : d.value ≠ "initial"

end Token

/-- A style sheet with one block of these declarations. -/
def sheet (ds : List Token) : Text :=
  "@theme \x7b ".toList ++ (ds.flatMap (fun d => d.declared ++ "; ".toList) ++ "\x7d".toList)

/-- What stands between the braces. -/
def sheetBody (ds : List Token) : Text := ' ' :: ds.flatMap fun d => d.declared ++ "; ".toList

theorem sheet_eq (ds : List Token) : sheet ds = "@theme ".toList ++ '\x7b' :: (sheetBody ds ++ '\x7d' :: []) := rfl

theorem sheetBody_eq (ds : List Token) :
    ∃ a pieces, a :: pieces = ds.map (fun d => ' ' :: d.declared) ++ [[' ']] ∧
      sheetBody ds = joinWith [';'] (a :: pieces) := by
  induction ds with
  | nil => exact ⟨[' '], [], rfl, rfl⟩
  | cons d ds ih =>
    obtain ⟨a, pieces, same, joined⟩ := ih
    refine ⟨' ' :: d.declared, a :: pieces, by simp [same], ?_⟩
    rw [joinWith_cons_cons, ← joined]
    simp [sheetBody]

/-- No comment begins in the text, or where it meets what follows. -/
def Apart (t : Text) : Prop := Uncommented t ∧ t.getLast? ≠ some '/'

theorem Apart.append {a b : Text} (first : Apart a) (second : Apart b) : Apart (a ++ b) := by
  refine ⟨first.1.append second.1 fun meets => first.2 meets.1, ?_⟩
  rw [List.getLast?_append]
  cases last : b.getLast? with
  | none => simpa using first.2
  | some c => simpa [last] using second.2

theorem apart_of_not_mem {t : Text} (absent : '/' ∉ t) : Apart t :=
  ⟨uncommented_of_not_mem absent, fun last => absent (List.mem_of_getLast? last)⟩

theorem Apart.flatMap {α : Type} {l : List α} {f : α → Text} (apart : ∀ a ∈ l, Apart (f a)) : Apart (l.flatMap f) := by
  induction l with
  | nil => exact apart_of_not_mem (by simp)
  | cons a l ih =>
    obtain ⟨first, later⟩ := List.forall_mem_cons.mp apart
    exact first.append (ih later)

section

variable {p : Piece} {d : Token} {ds : List Token}

theorem Piece.WellFormed.whole (formed : p.WellFormed) : Whole p.text := by
  cases p with
  | plain t =>
    have fewer : ";\"'\x7b\x7d()".toList ⊆ ";:\x7b\x7d()/*\"'".toList := by decide
    exact whole_of_plain fun c member inside => formed c member (fewer inside)
  | string inner => exact whole_string formed.1

theorem openBraces_piece (formed : p.WellFormed) (depth : Nat) :
    openBraces depth p.text = openBraces depth p.contents := by
  cases p with
  | plain t =>
    refine openBraces_plain (fun c member => ?_) depth
    have other := formed c member
    constructor <;> (rintro rfl; exact other (by decide))
  | string inner => exact openBraces_between (a := ['"']) (b := ['"']) (by simp) (by simp) inner depth

theorem apart_piece (formed : p.WellFormed) (uncommented : Uncommented p.contents) : Apart p.text := by
  cases p with
  | plain t => exact apart_of_not_mem fun member => formed '/' member (by decide)
  | string inner =>
    have behind : Uncommented (inner ++ ['"']) :=
      uncommented.append (uncommented_of_not_mem (by decide)) (by simp)
    refine ⟨uncommented_cons.mpr ⟨by simp, behind⟩, ?_⟩
    rw [Piece.text, ← List.cons_append, List.getLast?_concat]
    decide

namespace Token.WellFormed

theorem nameLike (formed : d.WellFormed) : NameLike d.name := by
  intro c member
  rcases formed.letters c member with lower | digit | rfl
  · simp [isNameChar, isAlphanum_of_lower lower]
  · simp [isNameChar, Char.isAlphanum, digit]
  · rfl

theorem other (formed : d.WellFormed) {marks : Text} (others : ∀ c ∈ marks, isNameChar c = false) :
    ∀ c ∈ d.name, c ∉ marks := fun c member inside =>
  ne_of_isNameChar (formed.nameLike c member) (others c inside) rfl

theorem whole (formed : d.WellFormed) : Whole d.declared := by
  have named : Whole d.name := whole_of_plain (formed.other (forall_of_all rfl))
  have between : Whole ": ".toList := by decide
  have valued : Whole d.value := .flatMap fun p member => (formed.pieces p member).whole
  exact (named.append between).append valued

theorem openBraces_declared (formed : d.WellFormed) (depth : Nat) :
    openBraces depth (d.declared ++ "; ".toList) = openBraces depth d.strings := by
  have plain : ∀ c ∈ d.name ++ ": ".toList, c ≠ '\x7b' ∧ c ≠ '\x7d' := by
    intro c member
    have other : c ∉ "\x7b\x7d".toList := by
      rcases List.mem_append.mp member with name | between
      · exact formed.other (forall_of_all rfl) c name
      · have apart : ∀ c ∈ ": ".toList, c ∉ "\x7b\x7d".toList := forall_of_all rfl
        exact apart c between
    simpa using other
  rw [Token.declared, List.append_assoc, openBraces_between plain (by simp)]
  exact openBraces_flatMap (fun p member => openBraces_piece (formed.pieces p member)) depth

theorem apart_declared (formed : d.WellFormed) (uncommented : ∀ p ∈ d.pieces, Uncommented p.contents) :
    Apart (d.declared ++ "; ".toList) := by
  have named : Apart d.name := apart_of_not_mem (formed.nameLike.not_mem rfl)
  have between : Apart ": ".toList := apart_of_not_mem (by decide)
  have ends : Apart "; ".toList := apart_of_not_mem (by decide)
  have valued : Apart d.value := .flatMap fun p member => apart_piece (formed.pieces p member) (uncommented p member)
  exact ((named.append between).append valued).append ends

/-- The declaration is read as what it declares. -/
theorem declaration_declared (formed : d.WellFormed) (trimmed : trim d.value = d.value) :
    declaration? (' ' :: d.declared) = some (d.name, d.value) := by
  have some_name : d.name ≠ [] := by
    rintro same
    have dashed := formed.dashed
    rw [same] at dashed
    exact absurd dashed (by decide)
  have visible : ∀ c ∈ d.name, isBlank c = false := fun c member => visible_of_isNameChar (formed.nameLike c member)
  have named : trim d.name = d.name := trim_eq_self (fun c head => visible c (List.mem_of_mem_head? head))
    (fun c last => visible c (List.mem_of_getLast? last))
  have whole : trim d.declared = d.declared := by
    rw [Token.declared, List.append_assoc]
    exact trim_append _ named some_name trimmed formed.some_value
  have spaced (t : Text) : trim (' ' :: t) = trim t := by
    have padded : trim ([' '] ++ (t ++ [])) = trim t := trim_padded (forall_of_all rfl) (by simp)
    simpa using padded
  have padded : trim (' ' :: d.declared) = d.declared := (spaced d.declared).trans whole
  have valued : trim (' ' :: d.value) = d.value := (spaced d.value).trans trimmed
  refine declaration_eq_some.mpr ⟨d.name, ' ' :: d.value, ?_, formed.nameLike.not_mem rfl, named, valued,
    formed.dashed, formed.some_value⟩
  rw [padded, Token.declared]
  simp

theorem count_declared (formed : d.WellFormed) {c : Char} (other : isNameChar c = false) (apart : c ∉ ": ;".toList) :
    (d.declared ++ "; ".toList).count c = d.value.count c := by
  have named : d.name.count c = 0 := List.count_eq_zero.mpr (formed.nameLike.not_mem other)
  have between : (": ".toList).count c = 0 := List.count_eq_zero.mpr fun inside => apart (by simp_all)
  have ends : ("; ".toList).count c = 0 := List.count_eq_zero.mpr fun inside => apart (by simp_all)
  rw [Token.declared, List.count_append, List.count_append, List.count_append, named, between, ends]
  omega

end Token.WellFormed

/-- How often a character stands in the values of a list of entries. -/
def weight (c : Char) (l : List (Text × Text)) : Nat := (l.flatMap Prod.snd).count c

theorem openBraces_sheetBody (formed : ∀ d ∈ ds, d.WellFormed) (depth : Nat) :
    openBraces depth (sheetBody ds) = openBraces depth (ds.flatMap Token.strings) := by
  have lead : openBraces depth (sheetBody ds) = openBraces depth (ds.flatMap fun d => d.declared ++ "; ".toList) := by
    have between := openBraces_between (a := [' ']) (b := []) (by simp) (by simp)
      (ds.flatMap fun d => d.declared ++ "; ".toList) depth
    simpa [sheetBody] using between
  rw [lead]
  exact openBraces_flatMap (fun d member => (formed d member).openBraces_declared) depth

theorem uncommented_sheetBody (formed : ∀ d ∈ ds, d.WellFormed) :
    Uncommented (sheetBody ds) ↔ ∀ d ∈ ds, ∀ p ∈ d.pieces, Uncommented p.contents := by
  constructor
  · intro uncommented d member p piece
    have written : p.contents <:+: p.text := by
      cases p with
      | plain t => exact List.nil_infix
      | string inner => exact ⟨['"'], ['"'], rfl⟩
    have valued : p.text <:+: d.value := List.infix_of_mem_flatten (List.mem_map_of_mem piece)
    have declared : d.value <:+: d.declared ++ "; ".toList := ⟨d.name ++ ": ".toList, "; ".toList, rfl⟩
    have inside : d.declared ++ "; ".toList <:+: sheetBody ds :=
      (List.infix_of_mem_flatten (List.mem_map_of_mem (f := fun d : Token => d.declared ++ "; ".toList) member)).trans
        (List.suffix_cons ' ' _).isInfix
    exact uncommented.part (((written.trans valued).trans declared).trans inside)
  · intro uncommented
    have apart : Apart (ds.flatMap fun d => d.declared ++ "; ".toList) :=
      .flatMap fun d member => (formed d member).apart_declared (uncommented d member)
    exact uncommented_cons.mpr ⟨by simp, apart.1⟩

theorem count_sheetBody (formed : ∀ d ∈ ds, d.WellFormed) {c : Char} (other : isNameChar c = false)
    (apart : c ∉ ": ;".toList) : (sheetBody ds).count c = weight c (ds.map fun d => (d.name, d.value)) := by
  have space : c ≠ ' ' := by
    rintro rfl
    exact apart (by decide)
  rw [sheetBody, List.count_cons_of_ne (Ne.symm space)]
  induction ds with
  | nil => rfl
  | cons d ds ih =>
    obtain ⟨first, later⟩ := List.forall_mem_cons.mp formed
    rw [List.flatMap_cons, List.count_append, first.count_declared other apart, ih later]
    simp [weight]

theorem declarations_sheetBody (formed : ∀ d ∈ ds, d.WellFormed) (trimmed : ∀ d ∈ ds, trim d.value = d.value)
    (uncommented : Uncommented (sheetBody ds)) :
    declarations (sheetBody ds) = ds.map fun d => (d.name, d.value) := by
  obtain ⟨a, pieces, same, joined⟩ := sheetBody_eq ds
  have whole : ∀ t ∈ a :: pieces, Whole t := by
    intro t member
    rw [same] at member
    rcases List.mem_append.mp member with inside | last
    · obtain ⟨d, token, rfl⟩ := List.mem_map.mp inside
      exact (whole_of_plain (t := [' ']) (forall_of_all rfl)).append (formed d token).whole
    · obtain rfl := List.mem_singleton.mp last
      decide
  have none_there : [[' ']].filterMap declaration? = [] := by decide
  rw [declarations, dropComments_eq_self uncommented, joined, statements_joinWith whole, same, List.filterMap_append,
    none_there, List.append_nil, List.filterMap_map, ← List.filterMap_eq_map]
  exact List.filterMap_congr fun d member => (formed d member).declaration_declared (trimmed d member)

/-- What is declared is put behind a list of other names. -/
theorem foldl_declare_new {l entries : List (Text × Text)} (unique : ((entries ++ l).map Prod.fst).Nodup)
    (kept : ∀ e ∈ l, e.2 ≠ "initial" ∧ trim e.2 = e.2) :
    l.foldl (fun l d => Plain.declare d.1 d.2 l) entries = entries ++ l := by
  induction l generalizing entries with
  | nil => simp
  | cons e l ih =>
    obtain ⟨⟨value, trimmed⟩, later⟩ := List.forall_mem_cons.mp kept
    have new : e.1 ∉ entries.map Prod.fst := by
      rw [List.map_append, List.nodup_append] at unique
      exact fun member => unique.2.2 e.1 member e.1 (by simp) rfl
    have put : Plain.declare e.1 e.2 entries = entries ++ [e] := by
      rw [Plain.declare, trimmed, if_pos value, Plain.put_absent e.2 new]
    have regrouped : entries ++ e :: l = entries ++ [e] ++ l := by simp
    rw [List.foldl_cons, put, regrouped, ih (by rwa [← regrouped]) later]

theorem weight_cons (c : Char) (e : Text × Text) (l : List (Text × Text)) :
    weight c (e :: l) = e.2.count c + weight c l := by
  rw [weight, List.flatMap_cons, List.count_append, weight]

theorem weight_filter (c : Char) (keep : Text × Text → Bool) (l : List (Text × Text)) :
    weight c (l.filter keep) ≤ weight c l :=
  (List.filter_sublist.flatMap Prod.snd).count_le c

theorem weight_put (c : Char) (name value : Text) (l : List (Text × Text)) :
    weight c (Plain.put name value l) ≤ weight c l + value.count c := by
  induction l with
  | nil => simp [Plain.put, weight]
  | cons e l ih =>
    rw [Plain.put]
    split
    · simp only [weight_cons]
      omega
    · simp only [weight_cons]
      omega

theorem weight_declare (c : Char) (name value : Text) (l : List (Text × Text)) :
    weight c (Plain.declare name value l) ≤ weight c l + value.count c := by
  rw [Plain.declare]
  split
  · have fewer := (trim_sublist value).count_le c
    exact (weight_put c name _ l).trans (Nat.add_le_add_left fewer _)
  · split
    · exact Nat.zero_le _
    · split
      · exact (weight_filter c _ l).trans (Nat.le_add_right ..)
      · exact (weight_filter c _ l).trans (Nat.le_add_right ..)

theorem mem_put {name value : Text} {l : List (Text × Text)} {e : Text × Text}
    (member : e ∈ Plain.put name value l) : e = (name, value) ∨ e ∈ l := by
  induction l with
  | nil => exact .inl (List.mem_singleton.mp member)
  | cons first l ih =>
    rw [Plain.put] at member
    split at member
    · rcases List.mem_cons.mp member with same | later
      · exact .inl same
      · exact .inr (List.mem_cons_of_mem first later)
    · rcases List.mem_cons.mp member with same | later
      · exact .inr (by simp [same])
      · exact (ih later).imp_right (List.mem_cons_of_mem first)

theorem trimmed_declare (name value : Text) {l : List (Text × Text)} (trimmed : ∀ e ∈ l, trim e.2 = e.2) :
    ∀ e ∈ Plain.declare name value l, trim e.2 = e.2 := by
  intro e member
  rw [Plain.declare] at member
  split at member
  · rcases mem_put member with rfl | old
    · exact trim_trim value
    · exact trimmed e old
  · split at member
    · cases member
    · split at member
      · exact trimmed e (List.mem_filter.mp member).1
      · exact trimmed e (List.mem_filter.mp member).1

theorem trimmed_entries (css : Text) : ∀ e ∈ (ofCss css).entries, trim e.2 = e.2 := by
  have declared (ds : List (Text × Text)) {l : List (Text × Text)} (trimmed : ∀ e ∈ l, trim e.2 = e.2) :
      ∀ e ∈ ds.foldl (fun l d => Plain.declare d.1 d.2 l) l, trim e.2 = e.2 := by
    induction ds generalizing l with
    | nil => exact trimmed
    | cons d ds ih => exact ih (trimmed_declare d.1 d.2 trimmed)
  rw [entries_ofCss]
  exact declared _ (by simp)

/-- The values of a theme hold no more of a character than its blocks do outside of comments. -/
theorem weight_entries (c : Char) (css : Text) :
    weight c (ofCss css).entries ≤ ((blocks css).flatMap (dropComments false)).count c := by
  have declared (ds l : List (Text × Text)) :
      weight c (ds.foldl (fun l d => Plain.declare d.1 d.2 l) l) ≤ weight c l + weight c ds := by
    induction ds generalizing l with
    | nil => exact Nat.le_refl _
    | cons d ds ih =>
      have first := weight_declare c d.1 d.2 l
      have later := ih (Plain.declare d.1 d.2 l)
      rw [List.foldl_cons, weight_cons]
      omega
  have read : weight c ((blocks css).flatMap declarations) ≤ ((blocks css).flatMap (dropComments false)).count c := by
    rw [weight, List.flatMap_assoc]
    exact (List.Sublist.flatMap_right _ fun body _ => values_sublist body).count_le c
  have nothing : weight c [] = 0 := rfl
  have all := declared ((blocks css).flatMap declarations) []
  rw [nothing, Nat.zero_add] at all
  rw [entries_ofCss]
  exact all.trans read

/-- Each block that is read takes along a brace that stands in no value. -/
theorem weight_add_length (css : Text) :
    weight '\x7d' (ofCss css).entries + (blocks css).length ≤ css.count '\x7d' := by
  have fewer : ((blocks css).flatMap (dropComments false)).Sublist ((blocks css).flatMap id) :=
    .flatMap_right _ fun body _ => dropComments_sublist false body
  calc weight '\x7d' (ofCss css).entries + (blocks css).length
    _ ≤ ((blocks css).flatMap (dropComments false)).count '\x7d' + (blocks css).length :=
      Nat.add_le_add_right (weight_entries _ css) _
    _ ≤ ((blocks css).flatMap id).count '\x7d' + (blocks css).length :=
      Nat.add_le_add_right (fewer.count_le _) _
    _ ≤ css.count '\x7d' := by
      rw [List.flatMap_id]
      exact count_blocksFrom .start css

theorem firstBlock_sheet (ds : List Token) :
    firstBlock (sheet ds) = splitBlock .code 0 (sheetBody ds ++ '\x7d' :: []) := by
  rw [sheet_eq]
  exact firstBlock_opening (by decide) _

theorem named_sheet (ds : List Token) : "@theme".toList <+: sheet ds :=
  ⟨" ".toList ++ '\x7b' :: (sheetBody ds ++ '\x7d' :: []), by rw [sheet_eq]; rfl⟩

/-- Where all values come back, the one block that is read reaches to the end of the sheet. The braces
that close are counted: each block that is read takes one along that stands in no value. -/
theorem block_of_entries (formed : ∀ d ∈ ds, d.WellFormed) (some_token : ds ≠ [])
    (same : (ofCss (sheet ds)).entries = ds.map fun d => (d.name, d.value)) :
    splitBlock .code 0 (sheetBody ds ++ '\x7d' :: []) = some (sheetBody ds, []) ∧
      blocks (sheet ds) = [sheetBody ds] := by
  have top : Place.start.isTopLevel = true := rfl
  cases found : firstBlock (sheet ds) with
  | none =>
    have nothing : blocks (sheet ds) = [] := blocksFrom_endless top (named_sheet ds) found
    rw [entries_ofCss, nothing] at same
    exact absurd (List.map_eq_nil_iff.mp same.symm) some_token
  | some block =>
    obtain ⟨body, after⟩ := block
    rw [firstBlock_sheet] at found
    have text := splitBlock_text found
    obtain ⟨more, read⟩ : ∃ more, blocks (sheet ds) = body :: more := by
      have whole : sheet ds = "@theme \x7b".toList ++ (body ++ ['\x7d']) ++ after := by
        rw [sheet_eq, text]
        simp
      exact ⟨_, blocksFrom_theme top (named_sheet ds) ((firstBlock_sheet ds).trans found) whole⟩
    have counted := count_sheetBody formed (c := '\x7d') rfl (by decide)
    have taken := weight_add_length (sheet ds)
    have sheet_count : (sheet ds).count '\x7d' = (sheetBody ds).count '\x7d' + 1 := by
      rw [sheet_eq]
      simp
    rw [same, ← counted, sheet_count, read, List.length_cons] at taken
    obtain rfl : more = [] := List.eq_nil_of_length_eq_zero (by omega)
    have held := weight_entries '\x7d' (sheet ds)
    rw [same, ← counted, read, List.flatMap_singleton] at held
    have fewer := (dropComments_sublist false body).count_le '\x7d'
    have text_count := congrArg (List.count '\x7d') text
    rw [List.count_append, List.count_append, List.count_cons_self, List.count_cons_self, List.count_nil] at text_count
    have none_left : after = [] := by
      by_contra some_left
      obtain ⟨front, c, rfl⟩ := (List.eq_nil_or_concat after).resolve_left some_left
      have last := congrArg List.getLast? text
      rw [List.concat_eq_append, List.getLast?_concat, ← List.cons_append, ← List.append_assoc,
        List.getLast?_concat] at last
      cases last
      simp at text_count
      omega
    subst none_left
    obtain rfl := List.append_cancel_right text
    exact ⟨found, read⟩

/-- A block of declarations is read back exactly if no value has a blank at an end, no comment begins in a
string, and the braces of all strings match. -/
theorem sheet_read_back_iff (formed : ∀ d ∈ ds, d.WellFormed) (unique : (ds.map Token.name).Nodup) :
    (ofCss (sheet ds)).entries = ds.map (fun d => (d.name, d.value)) ↔
      (∀ d ∈ ds, trim d.value = d.value) ∧ (∀ d ∈ ds, ∀ p ∈ d.pieces, Uncommented p.contents) ∧
        openBraces 0 (ds.flatMap Token.strings) = some 0 := by
  rw [← uncommented_sheetBody formed, ← openBraces_sheetBody formed]
  constructor
  · intro same
    by_cases some_token : ds = []
    · subst some_token
      exact ⟨by simp, by decide, rfl⟩
    · obtain ⟨ends, read⟩ := block_of_entries formed some_token same
      have uncommented : Uncommented (sheetBody ds) := by
        have counted := count_sheetBody formed (c := '/') rfl (by decide)
        have held := weight_entries '/' (sheet ds)
        rw [same, ← counted, read, List.flatMap_singleton] at held
        by_contra commented
        exact absurd held (Nat.not_le.mpr (count_dropComments commented))
      refine ⟨fun d member => ?_, uncommented, (splitBlock_eq_some_iff uncommented).mp ends⟩
      have entry : (d.name, d.value) ∈ (ofCss (sheet ds)).entries := by
        rw [same]
        exact List.mem_map_of_mem member
      exact trimmed_entries _ _ entry
  · rintro ⟨trimmed, uncommented, braces⟩
    have ends : splitBlock .code 0 (sheetBody ds ++ '\x7d' :: []) = some (sheetBody ds, []) :=
      (splitBlock_eq_some_iff uncommented).mpr braces
    have whole : sheet ds = sheet ds ++ [] := (List.append_nil _).symm
    have read := blocksFrom_theme (p := .start) rfl (named_sheet ds) ((firstBlock_sheet ds).trans ends) whole
    rw [blocksFrom_nil] at read
    rw [entries_ofCss, blocks, read, List.flatMap_singleton, declarations_sheetBody formed trimmed uncommented,
      foldl_declare_new]
    · rfl
    · simpa [Function.comp_def] using unique
    · intro e member
      obtain ⟨d, inside, rfl⟩ := List.mem_map.mp member
      exact ⟨(formed d inside).kept, trimmed d inside⟩

end

/-- A value with braces, semicolons and a colon in its strings. -/
def quotesToken : Token where
  name := "--quotes"
  pieces := [.string "\x7b:", .plain " x ", .string ";\x7d("]

theorem quotesToken_wellFormed : quotesToken.WellFormed where
  dashed := by decide
  letters := forall_of_all rfl
  pieces := by decide
  some_value := by decide
  kept := by decide

/-- Braces of two strings may match. -/
theorem quotes_read_back :
    (∀ d ∈ [quotesToken], d.WellFormed) ∧ ([quotesToken].map Token.name).Nodup ∧
    (ofCss "@theme \x7b --quotes: \"\x7b:\" x \";\x7d(\"; \x7d").entries =
      [("--quotes".toList, "\"\x7b:\" x \";\x7d(\"".toList)] := by
  have formed : ∀ d ∈ [quotesToken], d.WellFormed := by simpa using quotesToken_wellFormed
  have unique : ([quotesToken].map Token.name).Nodup := by decide
  have conditions : (∀ d ∈ [quotesToken], trim d.value = d.value) ∧
      (∀ d ∈ [quotesToken], ∀ p ∈ d.pieces, Uncommented p.contents) ∧
        openBraces 0 ([quotesToken].flatMap Token.strings) = some 0 := by decide
  exact ⟨formed, unique, (sheet_read_back_iff formed unique).mpr conditions⟩

/-- A brace in a string ends the block. -/
theorem braced_string_cut :
    (ofCss "@theme \x7b --a: \"\x7d\"; \x7d").entries = [("--a".toList, "\"".toList)] := by
  have read : blocks "@theme \x7b --a: \"\x7d\"; \x7d" = [" --a: \"".toList] := by cbv
  rw [entries_ofCss, read]
  decide

end AtomicCss.Theme
