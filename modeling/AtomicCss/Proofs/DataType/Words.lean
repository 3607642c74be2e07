import AtomicCss.DataType.Recognition
import AtomicCss.Proofs.Value.Alignment
import AtomicCss.Proofs.Value.Parentheses
import AtomicCss.Proofs.Value.RoundTrip

/-! Types whose values are single words. -/
namespace AtomicCss.DataType
open Text Value

/-- A word in which only the first character may be an operator, and not by itself. -/
structure SingleWord (w : Text) : Prop where
  letters : ∀ c ∈ w, isWordChar c = true
  some_left : w ≠ []
  operand : ∀ c, w = [c] → isOperatorChar c = false
  inert : ∀ c ∈ w.tail, isOperatorChar c = false

/-- Blank characters as siblings. -/
def padding (t : Text) : List Node := if t = [] then [] else [.separator t]

theorem visible_of_isWordChar {c : Char} (letter : isWordChar c = true) : isBlank c = false := by
  cases blank : isBlank c with
  | false => rfl
  | true => simp [isWordChar, isSeparator, blank] at letter

theorem isSeparator_of_isWordChar {c : Char} (letter : isWordChar c = true) : isSeparator c = false := by
  simp [isWordChar] at letter
  exact letter.2

/-- Letters are neither trimmed nor cut. -/
theorem trim_letters {w : Text} (letters : ∀ c ∈ w, isWordChar c = true) : trim w = w := by
  refine trim_eq_self (fun c head => ?_) (fun c last => ?_)
  · exact visible_of_isWordChar (letters c (List.mem_of_mem_head? head))
  · exact visible_of_isWordChar (letters c (List.mem_of_getLast? last))

section

variable {w before behind rest : Text}

/-- What begins with no separator is read without one in front. -/
theorem headSeparator_parse (other : rest.head?.any isSeparator = false) : headSeparator (parse rest) = false := by
  cases rest with
  | nil => rfl
  | cons c rest =>
    have first := here_other 0 rest (s := .plain) (c := c) (by simpa using fun _ => other)
    unfold headSeparator
    split
    · rename_i u ns same
      exact absurd same (first u ns)
    · rfl

/-- Blanks in front stand apart from a text that begins with no separator. -/
theorem parse_before (blank : ∀ c ∈ before, isBlank c = true) (other : rest.head?.any isSeparator = false) :
    parse (before ++ rest) = padding before ++ parse rest := by
  rw [parse, nest_separators 0 rest fun c member => isSeparator_blank (blank c member), ← parse, padding]
  dsimp only
  split
  · rename_i empty
    rw [empty]
    rfl
  · rename_i some_left
    rw [foldr_space some_left (space_fresh (headSeparator_parse other))]
    rfl

theorem parse_blank (blank : ∀ c ∈ behind, isBlank c = true) : parse behind = padding behind := by
  have read : parse (behind ++ []) = padding behind ++ parse [] := parse_before blank rfl
  simpa [parse, lex, nest] using read

theorem headWord_padding (t : Text) : headWord (padding t) = false := by
  unfold padding
  split <;> rfl

/-- A word stands apart from what is no word. -/
theorem parse_word (letters : ∀ c ∈ w, isWordChar c = true) (some_left : w ≠ [])
    (ends : headWord (parse rest) = false) : parse (w ++ rest) = .word w :: parse rest := by
  rw [parse, nest_letters 0 rest letters, ← parse]
  exact foldr_spell some_left (spell_fresh ends)

theorem compact_before (blank : ∀ c ∈ before, isBlank c = true) (ns : List Node) :
    compact [] (padding before ++ ns) = compact (padding before) ns := by
  unfold padding
  split
  · rfl
  · rename_i some_left
    have dropped : isDropped [] (.separator before) ns = true :=
      isDropped_iff.mpr (.inl ⟨⟨some_left, List.all_eq_true.mpr blank⟩, .inl rfl⟩)
    rw [List.singleton_append, compact_separator, if_pos dropped, List.nil_append]

theorem compact_behind (blank : ∀ c ∈ behind, isBlank c = true) (ahead : List Node) :
    compact ahead (padding behind) = [] := by
  unfold padding
  split
  · rw [compact]
  · rename_i some_left
    have dropped : isDropped ahead (.separator behind) [] = true :=
      isDropped_iff.mpr (.inl ⟨⟨some_left, List.all_eq_true.mpr blank⟩, .inr rfl⟩)
    rw [compact_separator, if_pos dropped, compact, List.append_nil]

variable (letters : ∀ c ∈ w, isWordChar c = true) (some_left : w ≠ [])
  (blank' : ∀ c ∈ behind, isBlank c = true)

include letters some_left blank'

theorem parse_single : parse (w ++ behind) = .word w :: padding behind := by
  have ends : headWord (parse behind) = false := by rw [parse_blank blank', headWord_padding]
  rw [parse_word letters some_left ends, parse_blank blank']

/-- A word between blanks is all that canonical spacing leaves. -/
theorem compactText_single (blank : ∀ c ∈ before, isBlank c = true) :
    compactText (before ++ (w ++ behind)) = w := by
  have other : (w ++ behind).head?.any isSeparator = false := by
    obtain ⟨c, w, rfl⟩ := List.exists_cons_of_ne_nil some_left
    simp [isSeparator_of_isWordChar (letters c (.head w))]
  rw [compactText_eq_compact, parse_before blank other, parse_single letters some_left blank', compact_before blank,
    compact_word, compact_behind blank']
  simp

end

namespace SingleWord

variable {w : Text}

theorem trim_eq (single : SingleWord w) : trim w = w := trim_letters single.letters

theorem parse_eq (single : SingleWord w) : parse w = [.word w] := by
  have read : parse (w ++ []) = .word w :: padding [] := parse_single single.letters single.some_left nofun
  rwa [List.append_nil] at read

theorem aligned (single : SingleWord w) : Aligned [.word w] := by
  obtain ⟨c, u, rfl⟩ := List.exists_cons_of_ne_nil single.some_left
  have opens (d : Char) (member : d ∈ c :: u) : d ≠ '(' := by
    rintro rfl
    exact absurd (single.letters _ member) (by decide)
  refine .word (opens c (.head u)) (fun operator alone => ?_) (fun d member => ?_) rfl .nil
  · simp [single.operand c (by rw [alone])] at operator
  · exact ⟨single.inert d member, opens d (.tail c member)⟩

theorem no_paren (single : SingleWord w) : '(' ∉ w := fun member =>
  absurd (single.letters '(' member) (by decide)

end SingleWord

theorem render_append (ns ms : List Node) : render (ns ++ ms) = render ns ++ render ms := by
  induction ns with
  | nil => simp
  | cons n ns ih => simp [ih]

theorem blank_of_separators {ns : List Node}
    (blank : ∀ n ∈ ns, ∃ t, n = .separator t ∧ t.all isBlank = true) :
    ∀ c ∈ render ns, isBlank c = true := by
  induction ns with
  | nil => simp
  | cons n ns ih =>
    obtain ⟨⟨t, rfl, first⟩, later⟩ := List.forall_mem_cons.mp blank
    rw [render_cons, renderNode_separator]
    exact List.forall_mem_append.mpr ⟨List.all_eq_true.mp first, ih later⟩

theorem blank_of_kept {ns : List Node} (kept : Kept ns []) : ∀ c ∈ render ns, isBlank c = true := by
  cases kept with
  | nil => simp
  | last blank => simpa using blank

/-- A text in front of which an operator between two single spaces is joined with the rest. -/
def Joins (p : Text → Bool) (v : Text) : Prop :=
  ∃ op t, isOperatorChar op = true ∧ v = ' ' :: op :: ' ' :: t ∧ p (trim (op :: t)) = true

namespace Joins

variable {p : Text → Bool} {v : Text} (joins : Joins p v) (single : ∀ w, p w = true → SingleWord w)

include joins single

theorem no_paren : '(' ∉ v := by
  obtain ⟨op, t, -, rfl, recognized⟩ := joins
  intro member
  have inside : '(' ∈ op :: t := by simpa using member
  exact (single _ recognized).no_paren ((mem_trim rfl _).mpr inside)

/-- The operator and what stands behind it are two words. -/
theorem not_single : ¬ SingleWord (trim v) := by
  obtain ⟨op, t, operator, rfl, recognized⟩ := joins
  have visible := isBlank_operator operator
  have left : trim [' ', op] ≠ [] := fun nothing => by
    simp [blank_of_trim nothing op (by simp)] at visible
  have right : trim t ≠ [] := fun nothing => by
    have alone : trim (op :: t) = [op] :=
      (trim_behind (blank_of_trim nothing) [op]).trans (trim_eq_self (by simp [visible]) (by simp [visible]))
    have word := single _ recognized
    rw [alone] at word
    simp [word.operand op rfl] at operator
  obtain ⟨r, r', between⟩ := trim_middle left right
  have whole : trim (' ' :: op :: ' ' :: t) = trim [' ', op] ++ (r ++ [' '] ++ r' ++ trim t) := between [' ']
  intro word
  exact absurd (word.letters ' ' (by simp [whole])) (by decide)

end Joins

section

variable {p : Text → Bool} (single : ∀ w, p w = true → SingleWord w) {v : Text}

include single

/-- A value that is a single word is so in its canonical spacing, without blanks around it. -/
theorem compactText_of_recognized (recognized : p (trim v) = true) : compactText v = trim v := by
  obtain ⟨before, behind, parts, blank, blank'⟩ := trim_parts v
  have word := single _ recognized
  have whole := compactText_single word.letters word.some_left blank' blank
  rwa [← parts] at whole

theorem compactText_of_joins (joins : Joins p v) : p (compactText v) = true := by
  obtain ⟨op, t, operator, rfl, recognized⟩ := joins
  obtain ⟨behind, parts, blank⟩ := trimEnd_parts t
  have trimmed : trim (op :: t) = op :: trimEnd t :=
    trim_between (a := []) (by simp [isBlank_operator operator]) (isBlank_operator operator)
  rw [trimmed] at recognized
  have word := single _ recognized
  have letters : ∀ c ∈ trimEnd t, isWordChar c = true := fun c member => word.letters c (.tail op member)
  have some_left : trimEnd t ≠ [] := by
    intro none
    have operand := word.operand op (by rw [none])
    simp [operator] at operand
  have other : t.head?.any isSeparator = false := by
    rw [parts]
    obtain ⟨c, u, same⟩ := List.exists_cons_of_ne_nil some_left
    simp [same, isSeparator_of_isWordChar (letters c (by simp [same]))]
  have read : parse t = .word (trimEnd t) :: padding behind := by
    conv => lhs; rw [parts]
    exact parse_single letters some_left blank
  have whole : compactText (' ' :: op :: ' ' :: t) = op :: trimEnd t := by
    rw [compactText_eq_compact, parse_operator operator other, read, compact_operator operator, compact_word,
      compact_behind blank]
    simp
  rwa [whole]

/-- Canonical spacing takes no single word away, and it adds only those that begin with an operator
between two single spaces. -/
theorem recognized_iff : p (trim (compactText v)) = true ↔ p (trim v) = true ∨ Joins p v := by
  constructor
  · intro recognized
    have word := single _ recognized
    have same : compactText v = trim (compactText v) := by
      have again := compactText_of_recognized single recognized
      rwa [compactText_again] at again
    rw [← same] at recognized word
    have source := source_of_aligned (v := v) (by rw [word.parse_eq]; exact word.aligned)
    rw [word.parse_eq] at source
    generalize compactText v = w at recognized word source
    cases source with
    | same lead ns read blank kept =>
      cases kept with | @word _ ns _ kept =>
      have whole : v = render lead ++ (w ++ render ns) := by
        rw [← render_parse v, read, render_append, render_cons, renderNode_word]
      have trimmed := trim_of_parts word.trim_eq (blank_of_separators blank) (blank_of_kept kept)
      rw [← whole] at trimmed
      exact .inl (by rwa [trimmed])
    | @joined op t u ns ms operator whole read same kept =>
      cases same
      have behind : op :: t = op :: u ++ render ns := by
        rw [← render_parse t, read]
        simp
      refine .inr ⟨op, t, operator, whole, ?_⟩
      rwa [behind, trim_behind (blank_of_kept kept), word.trim_eq]
  · rintro (recognized | joins)
    · rw [compactText_of_recognized single recognized, trim_trim]
      exact recognized
    · have recognized := compactText_of_joins single joins
      rwa [(single _ recognized).trim_eq]

end

end AtomicCss.DataType
