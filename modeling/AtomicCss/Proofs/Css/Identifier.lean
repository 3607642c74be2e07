import AtomicCss.Css.Identifier
import AtomicCss.Proofs.Candidate.Spelling

/-! Reading an escaped class name back. A style sheet reads an identifier character
by character: a backslash takes the character behind it as it is, or up to six
hexadecimal digits as a code point, and only letters, digits, dashes,
underscores and what is beyond ASCII stand for themselves. The escaped name of a
class begins as an identifier does, and it is read as the class exactly if each
character of the class can be written in this way. -/
namespace AtomicCss.Css
open Text

def isHexDigit (c : Char) : Bool :=
  c.isDigit || ('a' ≤ c && c ≤ 'f') || ('A' ≤ c && c ≤ 'F')

def hexValue (c : Char) : Nat :=
  if c.isDigit then c.toNat - '0'.toNat else c.toLower.toNat - 'a'.toNat + 10

/-- The character of a code point. A number that is none stands for U+FFFD. -/
def codePoint (digits : Text) : Char :=
  let n := digits.foldl (fun n c => 16 * n + hexValue c) 0
  if n ≠ 0 ∧ n.isValidChar then Char.ofNat n else '\uFFFD'

def isNewline (c : Char) : Bool := c == '\n' || c == '\r' || c.toNat == 0x0C

/-- Without the one blank that may end the digits of a code point. -/
def dropBlank : Text → Text
  | [] => []
  | c :: rest => if isNewline c || c == ' ' || c == '\t' then rest else c :: rest

theorem dropBlank_length (t : Text) : (dropBlank t).length ≤ t.length := by
  fun_cases dropBlank t <;> simp

/-- The characters that stand for themselves in an identifier. -/
def isIdentifierChar (c : Char) : Bool :=
  c.isAlphanum || c == '-' || c == '_' || 0x80 ≤ c.toNat

/-- The digits of a code point: as many as there are, but at most six. -/
def hexDigits (t : Text) : Text := (t.take 6).takeWhile isHexDigit

/-- What a text means as an identifier, if all of it is one. -/
def readIdentifier (t : Text) : Option Text :=
  match t with
  | [] => some []
  | '\\' :: [] => none
  | '\\' :: c :: rest =>
    if isHexDigit c then
      (readIdentifier (dropBlank ((c :: rest).drop (hexDigits (c :: rest)).length))).map
        (codePoint (hexDigits (c :: rest)) :: ·)
    else if isNewline c then none
    else (readIdentifier rest).map (c :: ·)
  | c :: rest => if isIdentifierChar c then (readIdentifier rest).map (c :: ·) else none
  termination_by t.length
  decreasing_by
    · have shorter := dropBlank_length ((c :: rest).drop (hexDigits (c :: rest)).length)
      simp only [List.length_drop, List.length_cons] at shorter ⊢
      omega
    · simp only [List.length_cons]
      omega
    · simp

/-- What an identifier may begin with: no digit, and behind a dash something that is no digit. -/
def StartsIdentifier : Text → Prop
  | [] => False
  | ['-'] => False
  | '-' :: c :: _ => c.isDigit = false
  | c :: _ => c.isDigit = false

/-- No control character, and none of the three marks that are written without a backslash. -/
def Presentable (c : Char) : Prop :=
  0x20 ≤ c.toNat ∧ c.toNat ≠ 0x7F ∧ c ∉ ";<\x60".toList

instance (c : Char) : Decidable (Presentable c) := inferInstanceAs (Decidable (_ ∧ _ ∧ _))

/-- Of the characters that get no backslash, the presentable ones stand for themselves. -/
theorem isIdentifierChar_iff {c : Char} (bare : needsBackslash c = false) :
    isIdentifierChar c = true ↔ Presentable c := by
  have ascii : ∀ n < 0x80, needsBackslash (Char.ofNat n) = false →
      (isIdentifierChar (Char.ofNat n) = true ↔ Presentable (Char.ofNat n)) := by decide +kernel
  by_cases small : c.toNat < 0x80
  · have known := ascii c.toNat small
    rw [Char.ofNat_toNat] at known
    exact known bare
  · have beyond : ∀ d ∈ ";<\x60".toList, d.toNat < 0x80 := forall_of_all rfl
    have other : c ∉ ";<\x60".toList := fun member => small (beyond c member)
    have presentable : Presentable c := ⟨by omega, by omega, other⟩
    simp [isIdentifierChar, presentable, Nat.le_of_not_lt small]

theorem read_escapeChar (c : Char) (rest : Text) :
    readIdentifier (escapeChar c ++ rest) =
      if Presentable c then (readIdentifier rest).map (c :: ·) else none := by
  unfold escapeChar
  by_cases escaped : needsBackslash c = true
  · obtain ⟨not_hex, same_line, presentable⟩ :
        isHexDigit c = false ∧ isNewline c = false ∧ Presentable c := by
      have listed := List.contains_iff_mem.mp escaped
      clear escaped
      revert c
      exact forall_of_all rfl
    rw [if_pos escaped, if_pos presentable, List.cons_append, List.singleton_append, readIdentifier]
    simp [not_hex, same_line]
  · have bare : needsBackslash c = false := by simpa using escaped
    have other : c ≠ '\\' := by
      rintro rfl
      cases bare
    rw [if_neg escaped, List.singleton_append, readIdentifier.eq_def]
    simp only [← isIdentifierChar_iff bare]
    split
    · contradiction
    all_goals simp_all

/-- What is written for the characters is read back if they can be written. -/
theorem read_escaped (t : Text) :
    readIdentifier (t.flatMap escapeChar) = if t.all Presentable then some t else none := by
  induction t with
  | nil => simp [readIdentifier]
  | cons c t ih =>
    rw [List.flatMap_cons, read_escapeChar, ih, List.all_cons]
    by_cases first : Presentable c
    · rw [if_pos first, decide_eq_true first, Bool.true_and]
      split <;> rfl
    · rw [if_neg first, decide_eq_false first, Bool.false_and]
      rfl

theorem mem_of_isDigit {c : Char} (digit : c.isDigit = true) : c ∈ "0123456789".toList := by
  have ascii : ∀ n < 0x80, (Char.ofNat n).isDigit = true →
      Char.ofNat n ∈ "0123456789".toList := by decide +kernel
  have small : c.toNat < 0x80 := by
    simp only [Char.isDigit, Bool.and_eq_true, decide_eq_true_eq, UInt32.le_iff_toNat_le] at digit
    exact Nat.lt_of_le_of_lt digit.2 (by decide)
  have member := ascii c.toNat small
  rw [Char.ofNat_toNat] at member
  exact member digit

/-- The digit of a class name that begins with one is written by its code point. -/
theorem read_digit {c : Char} (digit : c.isDigit = true) (rest : Text) :
    readIdentifier ('\\' :: '3' :: c :: ' ' :: rest) = (readIdentifier rest).map (c :: ·) := by
  have values : ∀ d ∈ "0123456789".toList, isHexDigit d = true ∧ codePoint ['3', d] = d :=
    forall_of_all (by decide +kernel)
  obtain ⟨hex, value⟩ := values c (mem_of_isDigit digit)
  have three : isHexDigit '3' = true := rfl
  have blank : isHexDigit ' ' = false := rfl
  have digits : hexDigits ('3' :: c :: ' ' :: rest) = ['3', c] := by
    simp [hexDigits, three, hex, blank]
  rw [readIdentifier, if_pos three, digits, value]
  rfl

theorem read_escapeClass (t : Text) :
    readIdentifier (escapeClass t) = if t.all Presentable then some t else none := by
  cases t with
  | nil => simp [escapeClass, readIdentifier]
  | cons c t =>
    rw [← read_escaped, List.flatMap_cons, escapeClass]
    by_cases digit : c.isDigit = true
    · have presentable : ∀ d ∈ "0123456789".toList, Presentable d := forall_of_all rfl
      rw [if_pos digit, read_escapeChar, if_pos (presentable c (mem_of_isDigit digit))]
      exact read_digit digit _
    · rw [if_neg digit]

theorem escapeChar_append {c d : Char} {a b : Text} (same : escapeChar c ++ a = escapeChar d ++ b) :
    c = d ∧ a = b := by
  have backslash : needsBackslash '\\' = true := rfl
  unfold escapeChar at same
  by_cases first : needsBackslash c = true
  · rw [if_pos first] at same
    by_cases second : needsBackslash d = true
    · rw [if_pos second] at same
      exact List.cons.inj (List.cons.inj same).2
    · rw [if_neg second] at same
      exact absurd ((List.cons.inj same).1 ▸ backslash) second
  · rw [if_neg first] at same
    by_cases second : needsBackslash d = true
    · rw [if_pos second] at same
      exact absurd ((List.cons.inj same).1 ▸ backslash) first
    · rw [if_neg second] at same
      exact List.cons.inj same

theorem escapeChar_ne_nil (c : Char) : escapeChar c ≠ [] := by
  unfold escapeChar
  split <;> simp

theorem escaped_injective {t u : Text} (same : t.flatMap escapeChar = u.flatMap escapeChar) :
    t = u := by
  induction t generalizing u with
  | nil =>
    cases u with
    | nil => rfl
    | cons d u => simp [escapeChar_ne_nil] at same
  | cons c t ih =>
    cases u with
    | nil => simp [escapeChar_ne_nil] at same
    | cons d u =>
      obtain ⟨rfl, rest⟩ := escapeChar_append same
      rw [ih rest]

/-- No other character is written like a digit at the front. -/
theorem escapeChar_ne_digit (c d : Char) (a b : Text) :
    '\\' :: '3' :: c :: ' ' :: a ≠ escapeChar d ++ b := by
  intro same
  have backslash : needsBackslash '\\' = true := rfl
  have three : needsBackslash '3' = false := rfl
  unfold escapeChar at same
  by_cases escaped : needsBackslash d = true
  · rw [if_pos escaped] at same
    obtain ⟨rfl, -⟩ := List.cons.inj (List.cons.inj same).2
    rw [three] at escaped
    cases escaped
  · rw [if_neg escaped] at same
    exact escaped ((List.cons.inj same).1 ▸ backslash)

theorem escapeClass_injective {t u : Text} (same : escapeClass t = escapeClass u) : t = u := by
  cases t with
  | nil =>
    cases u with
    | nil => rfl
    | cons d u =>
      rw [escapeClass, escapeClass] at same
      split at same <;> simp [escapeChar_ne_nil] at same
  | cons c t =>
    cases u with
    | nil =>
      rw [escapeClass, escapeClass] at same
      split at same <;> simp [escapeChar_ne_nil] at same
    | cons d u =>
      rw [escapeClass, escapeClass] at same
      by_cases first : c.isDigit = true <;> by_cases second : d.isDigit = true
      · rw [if_pos first, if_pos second] at same
        simp only [List.cons_append, List.nil_append, List.cons.injEq, true_and] at same
        rw [same.1, escaped_injective same.2]
      · rw [if_pos first, if_neg second] at same
        exact absurd same (escapeChar_ne_digit c d _ _)
      · rw [if_neg first, if_pos second] at same
        exact absurd same.symm (escapeChar_ne_digit d c _ _)
      · rw [if_neg first, if_neg second] at same
        exact escaped_injective (t := c :: t) (u := d :: u) same

/-- A class that begins with a dash goes on with something that is no digit. -/
def Signed (t : Text) : Prop :=
  t ≠ [] ∧ ∀ rest, t = '-' :: rest → ∃ c later, rest = c :: later ∧ c.isDigit = false

theorem startsIdentifier_escapeClass {t : Text} (signed : Signed t) :
    StartsIdentifier (escapeClass t) := by
  obtain ⟨some_left, behind⟩ := signed
  obtain ⟨c, t, rfl⟩ := List.exists_cons_of_ne_nil some_left
  rw [escapeClass]
  by_cases digit : c.isDigit = true
  · rw [if_pos digit]
    rfl
  · rw [if_neg digit, escapeChar]
    by_cases escaped : needsBackslash c = true
    · rw [if_pos escaped]
      rfl
    · rw [if_neg escaped]
      by_cases dash : c = '-'
      · subst dash
        obtain ⟨d, later, rfl, letter⟩ := behind t rfl
        rw [List.flatMap_cons, escapeChar]
        split
        · rfl
        · exact letter
      · unfold StartsIdentifier
        split <;> simp_all

section

variable {lead : Option Text} {t : Text} {c : Candidate}

theorem signed_of_head {t : Text} (some_left : t ≠ []) (head : t.head? ≠ some '-') (rest : Text) :
    Signed (t ++ rest) := by
  obtain ⟨c, t, rfl⟩ := List.exists_cons_of_ne_nil some_left
  refine ⟨by simp, ?_⟩
  rintro later ⟨⟩
  simp at head

theorem signed_variant {t : Text} {v : Variant} (spelt : Variant.Spelt t v) (rest : Text) :
    Signed (t ++ rest) := by
  have root {root : Text} (shape : Variant.isRoot root = true) (rest : Text) : Signed (root ++ rest) := by
    obtain ⟨-, some_left, head⟩ := Variant.nameLike_of_isRoot shape
    exact signed_of_head some_left head rest
  cases spelt with
  | selector => exact signed_of_head (t := ['[']) (by simp) (by simp) _
  | main main modifier =>
    cases main with
    | static shape => simpa using root shape _
    | bare shape => simpa using root shape _
    | named _ shape => simpa using root shape _
    | arbitrary _ shape => simpa using root shape _
    | compound _ known =>
      obtain ⟨-, some_left, dashless⟩ := Variant.nameLike_of_compoundRoot known
      have head (same : _ = some '-') := dashless (List.mem_of_mem_head? same)
      simpa using signed_of_head some_left head _

/-- A root of a utility begins with a lower-case letter. -/
theorem isRoot_head {root : Text} (shape : UtilityTerm.isRoot root = true) (rest : Text) :
    ∃ d later, root ++ rest = d :: later ∧ d.isDigit = false ∧ d ≠ '-' := by
  cases root with
  | nil => cases shape
  | cons d root =>
    simp only [UtilityTerm.isRoot, Bool.and_eq_true] at shape
    refine ⟨d, root ++ rest, rfl, ?_, ?_⟩
    · cases digit : d.isDigit with
      | false => rfl
      | true =>
        have digits : ∀ e ∈ "0123456789".toList, e.isLower = false := forall_of_all rfl
        rw [digits d (mem_of_isDigit digit)] at shape
        cases shape.1
    · rintro rfl
      cases shape.1

theorem mainSpelt_head {negative : Bool} {t : Text} {m : Option Argument} {u : UtilityTerm}
    (spelt : UtilityTerm.MainSpelt negative t m u) (rest : Text) :
    ∃ d later, t ++ rest = d :: later ∧ d.isDigit = false ∧ d ≠ '-' := by
  cases spelt with
  | static shape => exact isRoot_head shape _
  | bare shape => exact isRoot_head shape _
  | named _ shape =>
    rw [List.append_assoc]
    exact isRoot_head shape _
  | arbitrary _ shape =>
    rw [List.append_assoc]
    exact isRoot_head shape _

theorem signed_utility {t : Text} {u : UtilityTerm} (spelt : UtilityTerm.Spelt t u) (rest : Text) :
    Signed (t ++ rest) := by
  cases spelt with
  | property => exact signed_of_head (t := ['[']) (by simp) (by simp) _
  | @main negative main rest' _ _ spelt modifier =>
    obtain ⟨d, later, whole, letter, dashless⟩ := mainSpelt_head spelt (rest' ++ rest)
    rw [List.append_assoc, List.append_assoc, whole]
    cases negative with
    | false =>
      refine ⟨by simp, ?_⟩
      rintro _ ⟨⟩
      exact absurd rfl dashless
    | true =>
      refine ⟨by simp, ?_⟩
      rintro _ ⟨⟩
      exact ⟨d, later, rfl, letter⟩

theorem signed_of_read (read : Candidate.parse? lead t = some c)
    (letters : ∀ p ∈ lead, p.head? ≠ some '-') : Signed t := by
  have front (a : Text) (pieces : List Text) : ∃ rest, joinWith [':'] (a :: pieces) = a ++ rest := by
    cases pieces with
    | nil => exact ⟨[], by simp [joinWith, List.intercalate]⟩
    | cons b pieces => exact ⟨_, joinWith_cons_cons _ a b pieces⟩
  obtain ⟨⟨texts, base, last, rfl, each, spelt, marked⟩, -⟩ := Candidate.parse_eq_some.mp read
  have unprefixed : Signed (joinWith [':'] (texts ++ [last])) := by
    revert each
    generalize c.variants = variants
    intro each
    cases each with
    | cons spelt' _ =>
      obtain ⟨rest, same⟩ := front _ _
      rw [List.cons_append, same]
      exact signed_variant spelt' rest
    | nil =>
      obtain ⟨rest, same⟩ := front last []
      rw [List.nil_append, same]
      unfold Candidate.Marked at marked
      split at marked
      · rcases marked with rfl | rfl
        · rw [List.append_assoc]
          exact signed_utility spelt _
        · exact signed_of_head (t := ['!']) (by simp) (by simp) _
      · rw [marked]
        exact signed_utility spelt _
  unfold Candidate.leadTexts
  split
  · exact unprefixed
  · exact unprefixed
  · rename_i p other
    obtain ⟨rest, same⟩ := front p (texts ++ [last])
    rw [List.append_assoc, List.singleton_append, same]
    exact signed_of_head other (letters p rfl) rest

end

/-- The escaped name of a class begins as an identifier does. It is read as the class exactly if
each character of the class is presentable, and no other text has the same escaped name. -/
theorem escaped_class_reads_back_iff {lead : Option Text} {t : Text} {c : Candidate}
    (read : Candidate.parse? lead t = some c) :
    ((∀ p ∈ lead, p.head? ≠ some '-') → StartsIdentifier (escapeClass t)) ∧
      (readIdentifier (escapeClass t) = some t ↔ ∀ d ∈ t, Presentable d) ∧
      ∀ u, escapeClass t = escapeClass u → t = u := by
  refine ⟨fun letters => startsIdentifier_escapeClass (signed_of_read read letters), ?_,
    fun u same => escapeClass_injective same⟩
  rw [read_escapeClass]
  split
  · rename_i presentable
    exact iff_of_true rfl (by simpa using presentable)
  · rename_i hidden
    exact iff_of_false nofun (by simpa using hidden)

/-- A digit at the front, and quotes, a comma and a backslash between brackets. -/
theorem quoted_class_reads_back :
    let t := "2xl:before:content-['a,\\'b']".toList
    (∃ c, Candidate.parse? none t = some c) ∧ StartsIdentifier (escapeClass t) ∧
      readIdentifier (escapeClass t) = some t := by
  intro t
  have accepted : (Candidate.parse? none t).isSome = true := by decide +kernel
  obtain ⟨c, read⟩ := Option.isSome_iff_exists.mp accepted
  obtain ⟨starts, same, -⟩ := escaped_class_reads_back_iff read
  exact ⟨⟨c, read⟩, starts nofun, same.mpr (forall_of_all rfl)⟩

/-- A class may hold a semicolon between its brackets, and that is written as it is. -/
theorem semicolon_ends_identifier :
    ¬ ∀ (lead : Option Text) (t : Text) (c : Candidate), t ≠ [] → Candidate.parse? lead t = some c →
      readIdentifier (escapeClass t) = some t := by
  intro reads_back
  have accepted : (Candidate.parse? none "w-[a;b]").isSome = true := by decide +kernel
  obtain ⟨c, read⟩ := Option.isSome_iff_exists.mp accepted
  have same := reads_back none "w-[a;b]" c (by decide) read
  rw [read_escapeClass, if_neg (by decide)] at same
  cases same

end AtomicCss.Css
