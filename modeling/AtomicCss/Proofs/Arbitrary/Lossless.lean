import Mathlib.Data.List.Infix
import AtomicCss.Proofs.Arbitrary.Legibility

/-! Texts without a backslash and without a call of `url`: every underscore is read as a space, and
what was read comes back from where it is written. The spaces that operators get can not make a
call of `url` out of other text, because no part of a call is a space or an operator. -/
namespace AtomicCss.Arbitrary
open Text Value

/-- A call is spelled with letters, digits and a parenthesis. -/
def CallText (q : Text) : Prop := ∃ w, q = w ++ ['('] ∧ ∀ c ∈ w, c.isAlphanum = true

theorem toLower_cases (c : Char) : c.toLower = c ∨ c.isAlphanum = true ∧ c.toLower ≠ '(' := by
  by_cases upper : 'A'.val ≤ c.val ∧ c.val ≤ 'Z'.val
  · refine .inr ⟨isAlphanum_iff.mpr (.inl (.inl (isUpper_iff.mpr upper))), fun same => ?_⟩
    have value : c.val + ('a'.val - 'A'.val) = '('.val := congrArg Char.val ((dif_pos upper).symm.trans same)
    have first : 'A'.val.toNat ≤ c.val.toNat := UInt32.le_iff_toNat_le.mp upper.1
    have last : c.val.toNat ≤ 'Z'.val.toNat := UInt32.le_iff_toNat_le.mp upper.2
    have number := congrArg UInt32.toNat value
    simp at number first last
    omega
  · exact .inl (toLower_of_not_upper upper)

section

variable {name : Text} (letters : ∀ c ∈ name, c.isAlphanum = true)

include letters

theorem callText_of_lower {q : Text} (same : lower q = name ++ ['(']) : CallText q := by
  obtain ⟨w, last, rfl, front, final⟩ := List.map_eq_append_iff.mp same
  obtain ⟨c, rfl, paren⟩ := List.map_eq_singleton_iff.mp final
  have opens : c = '(' := by
    rcases toLower_cases c with kept | ⟨-, other⟩
    · rw [← kept, paren]
    · exact absurd paren other
  refine ⟨w, by rw [opens], fun d member => ?_⟩
  rcases toLower_cases d with kept | ⟨letter, -⟩
  · rw [← kept]
    exact letters _ (front ▸ List.mem_map_of_mem member)
  · exact letter

/-- Where every call in `u` stands in `t` too, no other function is called in `u`. -/
theorem called_before {t u : Text} (kept : ∀ q, CallText q → q <:+: u → q <:+: t)
    (call : (name ++ ['(']) <:+: lower u) : (name ++ ['(']) <:+: lower t := by
  obtain ⟨q, part, same⟩ := List.infix_map_iff.mp call
  exact List.infix_map_iff.mpr ⟨q, kept q (callText_of_lower letters same.symm) part, same⟩

end

/-- A part that begins with none of the characters in front stands behind them. -/
theorem infix_behind {q x l : Text} (apart : ∀ c ∈ x, q.head? ≠ some c) (part : q <:+: x ++ l) :
    q <:+: l := by
  induction x with
  | nil => exact part
  | cons d x ih =>
    rcases List.infix_cons_iff.mp part with ⟨behind, same⟩ | later
    · cases q with
      | nil => exact List.nil_infix
      | cons c q =>
        obtain ⟨rfl, -⟩ := List.cons.inj same
        exact absurd rfl (apart c (.head x))
    · exact ih (fun c member => apart c (.tail d member)) later

theorem CallText.head {q : Text} (call : CallText q) {c : Char} (head : q.head? = some c) :
    c ≠ ' ' ∧ isOperatorChar c = false := by
  obtain ⟨w, rfl, letters⟩ := call
  cases w with
  | nil =>
    obtain rfl : '(' = c := by simpa using head
    exact ⟨by decide, rfl⟩
  | cons d w =>
    obtain rfl : d = c := by simpa using head
    have letter := letters d (.head w)
    refine ⟨?_, isOperatorChar_letter letter⟩
    rintro rfl
    cases letter

theorem CallText.tail {c : Char} {q : Text} (call : CallText (c :: q)) : q = [] ∨ CallText q := by
  obtain ⟨w, same, letters⟩ := call
  cases w with
  | nil => exact .inl (List.cons.inj same).2
  | cons d w => exact .inr ⟨w, (List.cons.inj same).2, fun e member => letters e (.tail d member)⟩

theorem prefix_of_spaceFrom {q : Text} (call : CallText q) {m : MathState} {t : Text}
    (lead : q <+: spaceFrom m t) : q <+: t := by
  induction t generalizing q m with
  | nil => exact lead
  | cons c rest ih =>
    cases q with
    | nil => exact List.nil_prefix
    | cons d q =>
      obtain ⟨space, operator⟩ := call.head rfl
      obtain ⟨before, behind, emitted, gap, -, -⟩ := emit_eq m c rest
      obtain rfl : d = c := by
        rw [spaceFrom, emitted] at lead
        rcases gap with rfl | rfl
        · exact (List.cons_prefix_cons.mp lead).1
        · exact absurd (List.cons_prefix_cons.mp lead).1 space
      rw [spaceFrom, MathState.emit_other operator, List.singleton_append] at lead
      refine List.cons_prefix_cons.mpr ⟨rfl, ?_⟩
      rcases call.tail with rfl | call
      · exact List.nil_prefix
      · exact ih call (List.cons_prefix_cons.mp lead).2

/-- The spaces of operators make no call. -/
theorem infix_of_spaceFrom {q : Text} (call : CallText q) {m : MathState} {t : Text}
    (part : q <:+: spaceFrom m t) : q <:+: t := by
  induction t generalizing m with
  | nil => exact part
  | cons c rest ih =>
    have whole := part
    rw [spaceFrom] at part
    cases operator : isOperatorChar c with
    | false =>
      rw [MathState.emit_other operator, List.singleton_append] at part
      rcases List.infix_cons_iff.mp part with first | later
      · refine (prefix_of_spaceFrom call (m := m) ?_).isInfix
        rwa [spaceFrom, MathState.emit_other operator, List.singleton_append]
      · exact List.infix_cons (ih later)
    | true =>
      refine List.infix_cons (ih (infix_behind (fun d member head => ?_) part))
      obtain ⟨space, other⟩ := call.head head
      obtain ⟨before, behind, emitted, gap, gap', -⟩ := emit_eq m c rest
      rw [emitted] at member
      have known : d = ' ' ∨ d = c := by
        rcases gap with rfl | rfl <;> rcases gap' with rfl | rfl <;> simp at member <;> tauto
      rcases known with rfl | rfl
      · exact space rfl
      · rw [operator] at other
        cases other

/-- The text with its underscores read as spaces. -/
def opened (t : Text) : Text := t.map fun c => if c = '_' then ' ' else c

/-- A call holds no space, so it holds no character that was an underscore. -/
theorem infix_of_opened {q t : Text} (call : CallText q) (part : q <:+: opened t) : q <:+: t := by
  obtain ⟨q', inside, rfl⟩ := List.infix_map_iff.mp part
  obtain ⟨w, spelled, letters⟩ := call
  have other (c : Char) (member : c ∈ q') : c ≠ '_' := by
    rintro rfl
    have space : ' ' ∈ w ++ ['('] := spelled ▸ List.mem_map.mpr ⟨'_', member, rfl⟩
    rcases List.mem_append.mp space with letter | paren
    · cases letters ' ' letter
    · simp at paren
  have kept : q'.map (fun c => if c = '_' then ' ' else c) = q' :=
    (List.map_congr_left fun c member => if_neg (other c member)).trans (List.map_id' q')
  rwa [kept]

theorem mem_of_opened {c : Char} (visible : c ≠ ' ') {t : Text} (member : c ∈ opened t) : c ∈ t := by
  obtain ⟨d, inside, same⟩ := List.mem_map.mp member
  split at same
  · exact absurd same.symm visible
  · exact same ▸ inside

/-- No backslash stands in the text, and no call of `url` in upper or lower case. -/
structure Urlless (t : Text) : Prop where
  plain : '\\' ∉ t
  uncalled : ¬ "url(".toList <:+: lower t

instance (t : Text) : Decidable (Urlless t) :=
  decidable_of_iff ('\\' ∉ t ∧ ¬ "url(".toList <:+: lower t)
    ⟨fun ⟨plain, uncalled⟩ => ⟨plain, uncalled⟩, fun urlless => ⟨urlless.plain, urlless.uncalled⟩⟩

namespace Urlless

variable {t : Text}

theorem tail {c : Char} (urlless : Urlless (c :: t)) : Urlless t :=
  ⟨fun member => urlless.plain (.tail c member),
    fun call => urlless.uncalled (call.trans ((List.suffix_cons c t).isInfix.map Char.toLower))⟩

theorem not_opensUrl (urlless : Urlless t) : Decoding.opensUrl t = false := by
  cases opens : Decoding.opensUrl t with
  | false => rfl
  | true =>
    have same : lower (t.take 4) = "url(".toList := by simpa [Decoding.opensUrl] using opens
    exact absurd (same ▸ (List.take_prefix 4 t).isInfix.map Char.toLower) urlless.uncalled

theorem url_next {s : Decoding} (outside : s.url = none) {c : Char} (urlless : Urlless (c :: t)) :
    (s.next c t).url = none := by
  have other := urlless.not_opensUrl
  unfold Decoding.next
  split
  · split <;> exact outside
  · simp only [other, outside]
    split_ifs <;> trivial

theorem literal {s : Decoding} (outside : s.url = none) (urlless : Urlless t) : Literal s t := by
  induction t generalizing s with
  | nil => exact literal_nil s
  | cons c rest ih =>
    have plain : c ≠ '\\' := fun same => urlless.plain (by simp [same])
    by_cases space : c = ' '
    · subst space
      exact (literal_space s rest).mpr ⟨outside, ih outside urlless.tail⟩
    · exact (literal_other s plain space rest).mpr (ih (url_next outside urlless) urlless.tail)

theorem unescape_eq {s : Decoding} (outside : s.url = none) (urlless : Urlless t) :
    unescape s t = Arbitrary.opened t := by
  induction t generalizing s with
  | nil => rfl
  | cons c rest ih =>
    have plain : c ≠ '\\' := fun same => urlless.plain (by simp [same])
    have next := url_next outside urlless
    rw [unescape_plain s plain, ih next urlless.tail]
    simp [Arbitrary.opened, next]

theorem letters_url : ∀ c ∈ "url".toList, c.isAlphanum = true := forall_of_all rfl

theorem opened (urlless : Urlless t) : Urlless (opened t) := by
  refine ⟨fun member => urlless.plain (mem_of_opened (by decide) member), fun call => urlless.uncalled ?_⟩
  exact called_before letters_url (fun _ call => infix_of_opened call) call

theorem spaceFrom (urlless : Urlless t) (m : MathState) : Urlless (spaceFrom m t) := by
  refine ⟨fun member => urlless.plain ?_, fun call => urlless.uncalled ?_⟩
  · have kept : '\\' ∈ ink (Arbitrary.spaceFrom m t) := List.mem_filter.mpr ⟨member, rfl⟩
    rw [ink_spaceFrom] at kept
    exact (List.mem_filter.mp kept).1
  · exact called_before letters_url (fun _ call => infix_of_spaceFrom call) call

/-- What stands in the text comes back from where it is written, but for the spaces of operators. -/
theorem decode_encode (urlless : Urlless t) : decode (encode t) = spaceOperators t := by
  rw [decode, unescape_encode Decoding.sound_start,
    respell_literal Decoding.sound_start (urlless.literal rfl)]

end Urlless

theorem spaceOperators_spaceOperators (t : Text) : spaceOperators (spaceOperators t) = spaceOperators t :=
  (settled_spaceFrom .start t).spaceFrom_eq

/-- What was read from a text without backslashes and calls of `url` comes back from where it is
written. In particular no operator of any text that was spaced out is spaced out again. -/
theorem decoded_comes_back {r : Text} (urlless : Urlless r) :
    decode (encode (decode r)) = decode r ∧
      ∀ t, spaceOperators (spaceOperators t) = spaceOperators t := by
  have read : decode r = spaceOperators (opened r) := by rw [decode, urlless.unescape_eq rfl]
  have written : Urlless (decode r) := read ▸ urlless.opened.spaceFrom .start
  refine ⟨?_, spaceOperators_spaceOperators⟩
  rw [written.decode_encode, read, spaceOperators_spaceOperators]

/-- Operators in nested groups, an operator with spaces of its own, and one in a string. -/
theorem nested_mathematics_comes_back :
    let r : Text := "calc((1px+2%)*max(3-var(--a-b),'x+y')_-_4)/urls(_"
    Urlless r ∧ decode r = "calc((1px + 2%) * max(3 - var(--a-b),'x+y') - 4)/urls( " ∧
      decode (encode (decode r)) = decode r ∧
      ∀ t, spaceOperators (spaceOperators t) = spaceOperators t := by
  intro r
  have urlless : Urlless r := by decide +kernel
  exact ⟨urlless, by decide +kernel, decoded_comes_back urlless⟩

end AtomicCss.Arbitrary
