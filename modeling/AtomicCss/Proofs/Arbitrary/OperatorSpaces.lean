import AtomicCss.Proofs.Arbitrary.Legibility
import AtomicCss.Proofs.Text.Cut

/-! Texts in which every blank character is one of the two single spaces around an operator.
Canonical spacing takes all of them away, whether or not the parentheses match. -/
namespace AtomicCss.Arbitrary
open Text Value

/-- An operator, with `x` and a single space in front, and with a single space and `y` behind. -/
structure Stands (x : Text) (op : Char) (y : Text) : Prop where
  operator : isOperatorChar op = true
  before : x.getLast?.any isSeparator = false
  behind : y.head?.any isSeparator = false

/-- Each blank character is the space in front of an operator or the one behind it. -/
def OperatorSpaces (v : Text) : Prop :=
  ∀ front c behind, v = front ++ c :: behind → isBlank c = true →
    ∃ x op y, Stands x op y ∧ v = x ++ ' ' :: op :: ' ' :: y ∧ (front = x ∨ front = x ++ [' ', op])

instance (x : Text) (op : Char) (y : Text) : Decidable (Stands x op y) :=
  decidable_of_iff (isOperatorChar op = true ∧ x.getLast?.any isSeparator = false ∧
    y.head?.any isSeparator = false)
    ⟨fun ⟨operator, before, behind⟩ => ⟨operator, before, behind⟩,
      fun stands => ⟨stands.operator, stands.before, stands.behind⟩⟩

/-- Whether an operator stands at the cut, and `front` ends before one of its spaces. -/
def isOperatorCut (front : Text) (cut : Text × Text) : Bool :=
  match cut.2 with
  | op :: ' ' :: y => Stands cut.1 op y && (front == cut.1 || front == cut.1 ++ [' ', op])
  | _ => false

theorem isOperatorCut_iff {front x t : Text} : isOperatorCut front (x, t) = true ↔
    ∃ op y, t = op :: ' ' :: y ∧ Stands x op y ∧ (front = x ∨ front = x ++ [' ', op]) := by
  unfold isOperatorCut
  dsimp only
  split
  · rename_i op y
    simp
  · rename_i other
    refine iff_of_false (by simp) ?_
    rintro ⟨op, y, rfl, -⟩
    exact other op y rfl

/-- Whether the blank character behind `front` is a space of an operator. -/
def isOperatorSpace (v front : Text) : Bool := (splits ' ' v).any (isOperatorCut front)

theorem isOperatorSpace_iff {v front : Text} : isOperatorSpace v front = true ↔
    ∃ x op y, Stands x op y ∧ v = x ++ ' ' :: op :: ' ' :: y ∧ (front = x ∨ front = x ++ [' ', op]) := by
  rw [isOperatorSpace, List.any_eq_true]
  constructor
  · rintro ⟨⟨x, t⟩, member, found⟩
    obtain ⟨op, y, rfl, stands, place⟩ := isOperatorCut_iff.mp found
    exact ⟨x, op, y, stands, mem_splits.mp member, place⟩
  · rintro ⟨x, op, y, stands, whole, place⟩
    exact ⟨(x, op :: ' ' :: y), mem_splits.mpr whole, isOperatorCut_iff.mpr ⟨op, y, rfl, stands, place⟩⟩

theorem operatorSpaces_iff {v : Text} : OperatorSpaces v ↔
    (v.all fun c => !isBlank c || (splits c v).all (isOperatorSpace v ·.1)) = true := by
  constructor
  · intro spaces
    refine List.all_eq_true.mpr fun c _ => ?_
    cases blank : isBlank c with
    | false => rfl
    | true =>
      rw [Bool.not_true, Bool.false_or, List.all_eq_true]
      rintro ⟨front, behind⟩ cut
      exact isOperatorSpace_iff.mpr (spaces front c behind (mem_splits.mp cut) blank)
  · intro each front c behind whole blank
    have inside := List.all_eq_true.mp each c (by simp [whole])
    rw [blank, Bool.not_true, Bool.false_or, List.all_eq_true] at inside
    exact isOperatorSpace_iff.mp (inside (front, behind) (mem_splits.mpr whole))

-- A check on Booleans, so that no other instance decides for all characters of Unicode.
instance (v : Text) : Decidable (OperatorSpaces v) := decidable_of_iff _ operatorSpaces_iff.symm

/-- The same from left to right, where the space between two operators belongs to both. -/
inductive OperatorSpaced : Text → Prop
  | nil : OperatorSpaced []
  | visible {c : Char} {t : Text} (visible : isBlank c = false)
    (apart : isSeparator c = true → t.head?.any isBlank = false) (rest : OperatorSpaced t) :
    OperatorSpaced (c :: t)
  | last {op : Char} {t : Text} (operator : isOperatorChar op = true)
    (ends : t.head?.any isSeparator = false)
    (alone : ∀ op' y, t = op' :: ' ' :: y → isOperatorChar op' = false) (rest : OperatorSpaced t) :
    OperatorSpaced (' ' :: op :: ' ' :: t)
  | more {op op' : Char} {t : Text} (operator : isOperatorChar op = true)
    (operator' : isOperatorChar op' = true) (rest : OperatorSpaced (' ' :: op' :: ' ' :: t)) :
    OperatorSpaced (' ' :: op :: ' ' :: op' :: ' ' :: t)

/-- A place of the text with `front` ahead of it, where a space is the first one of an operator and
no operator has lost its first one. -/
structure Ready (v front t : Text) : Prop where
  whole : v = front ++ t
  first : ∀ c rest, t = c :: rest → isBlank c = true → ∃ op y, t = ' ' :: op :: ' ' :: y ∧ Stands front op y
  behind : ∀ x op y, v = x ++ ' ' :: op :: ' ' :: y → isOperatorChar op = true → front ≠ x ++ [' ']

/-- Behind an operator that has its spaces. -/
theorem Ready.after_last {v front y : Text} {op : Char} (stands : Stands front op y)
    (whole : v = front ++ ' ' :: op :: ' ' :: y)
    (alone : ¬ ∃ op' y', y = op' :: ' ' :: y' ∧ isOperatorChar op' = true) :
    Ready v (front ++ [' ', op, ' ']) y := by
  refine ⟨by simp [whole], ?_, ?_⟩
  · rintro c rest rfl blank
    have separates := stands.behind
    simp [isSeparator_blank blank] at separates
  · intro x op' y' whole' operator' same
    have front' : front ++ [' ', op] = x := by
      have same' : front ++ [' ', op] ++ [' '] = x ++ [' '] := by simpa using same
      exact List.append_cancel_right same'
    rw [whole, ← front'] at whole'
    have behind : y = op' :: ' ' :: y' := by simpa using whole'
    exact alone ⟨op', y', behind, operator'⟩

section

variable {v : Text} (spaces : OperatorSpaces v)

include spaces

/-- Between two operators. -/
theorem Ready.after_more {front y : Text} {op op' : Char} (stands : Stands front op (op' :: ' ' :: y))
    (operator' : isOperatorChar op' = true) (whole : v = front ++ ' ' :: op :: ' ' :: op' :: ' ' :: y) :
    Ready v (front ++ [' ', op]) (' ' :: op' :: ' ' :: y) := by
  have between : (front ++ [' ', op]).getLast?.any isSeparator = false := by
    simp [isSeparator_operator stands.operator]
  have behind : y.head?.any isSeparator = false := by
    obtain ⟨x, op₃, z, stands', whole', place⟩ :=
      spaces (front ++ [' ', op, ' ', op']) ' ' y (by simp [whole]) rfl
    rcases place with rfl | same
    · have next : y = op₃ :: ' ' :: z := by simpa [whole] using whole'
      simp [next, isSeparator_operator stands'.operator]
    · have front' : front ++ [' ', op] = x ∧ op' = op₃ := by
        have same' : front ++ [' ', op] ++ [' ', op'] = x ++ [' ', op₃] := by simpa using same
        simpa using List.append_inj' same' rfl
      obtain ⟨rfl, rfl⟩ := front'
      have next : y = z := by simpa [whole] using whole'
      exact next ▸ stands'.behind
  refine ⟨by simp [whole], ?_, ?_⟩
  · rintro c rest same -
    exact ⟨op', y, rfl, operator', between, behind⟩
  · intro x op₃ z whole' operator₃ same
    have last := congrArg List.getLast? same
    simp only [List.getLast?_append, List.getLast?_cons_cons, List.getLast?_singleton, Option.some_or,
      Option.some.injEq] at last
    rw [last] at stands
    cases stands.operator

theorem Ready.after_visible {front t : Text} {c : Char} (visible : isBlank c = false)
    (ready : Ready v front (c :: t)) : Ready v (front ++ [c]) t := by
  have other := ne_space visible
  refine ⟨by simp [ready.whole], ?_, ?_⟩
  · rintro d rest rfl blank
    obtain ⟨x, op, y, stands, whole, place⟩ := spaces (front ++ [c]) d rest (by simp [ready.whole]) blank
    rcases place with rfl | same
    · refine ⟨op, y, ?_, stands⟩
      simpa [ready.whole] using whole
    · have same' : front ++ [c] = x ++ [' '] ++ [op] := by simpa using same
      exact absurd (List.append_inj_left' same' rfl) (ready.behind x op y whole stands.operator)
  · intro x op y whole operator same
    exact other (by simpa using (List.append_inj' same rfl).2)

/-- A separator of another kind has no space behind it. -/
theorem Ready.apart {front t : Text} {c : Char} (ready : Ready v front (c :: t))
    (separates : isSeparator c = true) : t.head?.any isBlank = false := by
  cases t with
  | nil => rfl
  | cons d rest =>
    by_contra blank
    obtain ⟨x, op, y, stands, whole, place⟩ :=
      spaces (front ++ [c]) d rest (by simp [ready.whole]) (by simpa using blank)
    rcases place with rfl | same
    · have before := stands.before
      simp [separates] at before
    · have same' : front ++ [c] = x ++ [' '] ++ [op] := by simpa using same
      obtain rfl : c = op := by simpa using (List.append_inj' same' rfl).2
      rw [isSeparator_operator stands.operator] at separates
      cases separates

theorem Ready.spaced {front t : Text} (ready : Ready v front t) : OperatorSpaced t := by
  match t, ready with
  | [], _ => exact .nil
  | c :: rest, ready =>
    cases blank : isBlank c with
    | false => exact .visible blank (ready.apart spaces) (Ready.spaced (ready.after_visible spaces blank))
    | true =>
      obtain ⟨op, y, same, stands⟩ := ready.first c rest rfl blank
      obtain ⟨rfl, rfl⟩ := List.cons.inj same
      by_cases shared : ∃ op' y', y = op' :: ' ' :: y' ∧ isOperatorChar op' = true
      · obtain ⟨op', y', rfl, operator'⟩ := shared
        exact .more stands.operator operator'
          (Ready.spaced (Ready.after_more spaces stands operator' ready.whole))
      · refine .last stands.operator stands.behind (fun op' y' next => ?_)
          (Ready.spaced (Ready.after_last stands ready.whole shared))
        exact Bool.eq_false_iff.mpr fun operator' => shared ⟨op', y', next, operator'⟩
termination_by t.length

theorem OperatorSpaces.spaced : OperatorSpaced v := by
  have start : Ready v [] v := by
    refine ⟨rfl, ?_, ?_⟩
    · rintro c rest rfl blank
      obtain ⟨x, op, y, stands, whole, place⟩ := spaces [] c rest rfl blank
      rcases place with rfl | same
      · exact ⟨op, y, whole, stands⟩
      · simp at same
    · intro x op y whole operator same
      simp at same
  exact start.spaced spaces

end

/-- Canonical spacing takes every blank character of the siblings, whatever stands ahead. -/
def Inked (ns : List Node) : Prop := ∀ before, render (compact before ns) = ink (render ns)

theorem isSpace_solid {u : Text} (solid : u.all isBlank = false) : (Node.separator u).isSpace = false := by
  by_contra single
  have same : u = [' '] := by simpa [Node.isSpace] using single
  rw [same] at solid
  cases solid

/-- A separator with a visible character stays. -/
theorem compact_solid {u : Text} (solid : u.all isBlank = false) (before ns : List Node) :
    compact before (.separator u :: ns) = .separator u :: compact (.separator u :: before) ns := by
  have kept : isDropped before (.separator u) ns = false := by
    rw [isDropped, isSpace_solid solid]
    simp [Node.isBlankSeparator, solid]
  rw [compact_separator, kept]
  rfl

namespace Inked

variable {c : Char} {ns : List Node}

theorem nil : Inked [] := by
  intro before
  simp [compact, ink]

theorem word {t : Text} (solid : ink t = t) (inked : Inked ns) : Inked (.word t :: ns) := by
  intro before
  rw [compact_word, render_cons, render_cons, renderNode_word, inked, ink_append, solid]

/-- A visible character in front of a word that is not empty. -/
theorem spell (inked : Inked ns) (visible : isBlank c = false)
    (filled : ∀ u ms, ns = .word u :: ms → u ≠ []) : Inked (spell c ns) := by
  intro before
  have behind := inked (.word [c] :: before)
  rw [render_spell, ink_visible visible, ← behind]
  fun_cases Value.spell c ns with
  | case1 u ms =>
    have alike : Alike (.word (c :: u) :: before) (.word u :: .word [c] :: before) := by
      refine ⟨rfl, ?_, rfl⟩
      rw [spacedOperator_cons, spacedOperator_cons, isOperator_cons]
      simp [filled u ms rfl, headSpace, Node.isSpace]
    rw [compact_word, compact_word, compact_congr alike]
    simp
  | case2 name args ms =>
    rw [compact_call, compact_call, compact_congr (.call (c :: name) args before name args (.word [c] :: before))]
    simp
  | case3 =>
    rw [compact_word]
    simp

/-- A visible character in front of a separator that is not blank. -/
theorem space (inked : Inked ns) (visible : isBlank c = false)
    (solid : ∀ u ms, ns = .separator u :: ms → u.all isBlank = false) : Inked (space c ns) := by
  intro before
  have behind := inked (.separator [c] :: before)
  rw [render_space, ink_visible visible, ← behind]
  fun_cases Value.space c ns with
  | case1 u ms =>
    have solid := solid u ms rfl
    have longer : (c :: u).all isBlank = false := by simp [visible]
    have alike : Alike (.separator (c :: u) :: before) (.separator u :: .separator [c] :: before) := by
      refine ⟨rfl, by simp [spacedOperator_cons, Node.isOperator], ?_⟩
      simp only [headSpace, isSpace_solid solid, isSpace_solid longer]
    rw [compact_solid solid, compact_solid longer, compact_congr alike]
    simp
  | case2 =>
    rw [compact_solid (by simp [visible])]
    simp

theorem call {args : List Node} (inside : Inked args) (behind : Inked ns) :
    Inked (.call [] args :: ns) := by
  intro before
  rw [compact_call, render_cons, render_cons, behind, renderNode_call, renderNode_call, inside, ink_append,
    List.nil_append, List.nil_append, ink_visible rfl, ink_append]
  rfl

section

variable {op : Char} (operator : isOperatorChar op = true)

include operator

/-- An operator and a space in front of it, where the space behind it goes away. -/
theorem operator_front (behind : ∀ before, render (compact (.word [op] :: .separator [' '] :: before)
      (.separator [' '] :: ns)) = ink (render ns)) :
    Inked (.separator [' '] :: .word [op] :: .separator [' '] :: ns) := by
  intro before
  have dropped : isDropped before (.separator [' ']) (.word [op] :: .separator [' '] :: ns) = true := by
    simp [isDropped, Node.isSpace, spacedOperator_cons, isOperator_cons, operator, headSpace]
  rw [compact_separator, if_pos dropped, List.nil_append, compact_word, render_cons, behind]
  simp [ink_space, ink_visible (isBlank_operator operator)]

theorem last (inked : Inked ns) : Inked (.separator [' '] :: .word [op] :: .separator [' '] :: ns) := by
  refine operator_front operator fun before => ?_
  have dropped : isDropped (.word [op] :: .separator [' '] :: before) (.separator [' ']) ns = true := by
    simp [isDropped, Node.isSpace, spacedOperator_cons, isOperator_cons, operator, headSpace]
  rw [compact_separator, if_pos dropped, List.nil_append, inked]

theorem more (inked : Inked (.separator [' '] :: ns)) :
    Inked (.separator [' '] :: .word [op] :: .separator [' '] :: ns) := by
  refine operator_front operator fun before => ?_
  rw [inked, render_cons]
  rfl

end

end Inked

/-- Without quotes and escapes. -/
structure Unquoted (t : Text) : Prop where
  plain : '\\' ∉ t
  double : '"' ∉ t
  single : '\'' ∉ t

namespace Unquoted

variable {c : Char} {t : Text}

theorem tail (unquoted : Unquoted (c :: t)) : Unquoted t :=
  ⟨fun member => unquoted.plain (.tail c member), fun member => unquoted.double (.tail c member),
    fun member => unquoted.single (.tail c member)⟩

theorem next (unquoted : Unquoted (c :: t)) : Scan.plain.next c = .plain := by
  have escape : c ≠ '\\' := fun same => unquoted.plain (same ▸ .head t)
  have double : c ≠ '"' := fun same => unquoted.double (same ▸ .head t)
  have single : c ≠ '\'' := fun same => unquoted.single (same ▸ .head t)
  simp [Scan.next, Scan.isQuote, escape, double, single]

end Unquoted

/-- A separator that begins visibly. -/
theorem solid_separator {t : Text} (depth : Nat) (visible : t.head?.any isBlank = false) :
    ∀ u ns, (nest (lex depth .plain t)).here = .separator u :: ns → u.all isBlank = false := by
  intro u ns first
  cases t with
  | nil => cases first
  | cons c t =>
    have visible : isBlank c = false := by simpa using visible
    cases separates : isSeparator c with
    | false => exact absurd first (here_other depth t (by simp [separates]) u ns)
    | true =>
      obtain ⟨ns', same⟩ := here_separator depth t separates
      rw [same] at first
      cases first
      simp [separates, visible]

/-- Canonical spacing takes every blank character of the text, at any depth. -/
theorem inked_nest {t : Text} (spaced : OperatorSpaced t) (unquoted : Unquoted t) (depth : Nat) :
    Inked (nest (lex depth .plain t)).here ∧ ∀ ns ∈ (nest (lex depth .plain t)).after, Inked ns := by
  induction spaced generalizing depth with
  | nil => exact ⟨.nil, by simp [lex, nest]⟩
  | @visible c t visible apart rest ih =>
    have ih := ih unquoted.tail
    rcases reading_cases depth .plain c with inward | ⟨-, rfl⟩ | ⟨-, rfl, outer, rfl⟩ | ⟨-, live, separates⟩
    · rw [nest_word depth t inward, unquoted.next]
      refine ⟨(ih depth).1.spell visible fun u ns first => ?_, (ih depth).2⟩
      cases t with
      | nil => cases first
      | cons d t =>
        obtain ⟨v, rfl⟩ := here_word depth t first
        simp
    · obtain ⟨here, later⟩ := ih (depth + 1)
      rw [nest_opening, Nesting.openCall]
      split
      · rename_i siblings after same
        rw [same] at later
        exact ⟨.call here (later siblings (by simp)), fun ns member => later ns (.tail _ member)⟩
      · exact ⟨.word rfl here, by simp⟩
    · rw [nest_closing]
      exact ⟨.nil, by simpa [Nesting.close] using ih outer⟩
    · rw [nest_separator depth t live separates]
      exact ⟨(ih depth).1.space visible (solid_separator depth (apart separates)), (ih depth).2⟩
  | last operator ends alone rest ih =>
    obtain ⟨here, later⟩ := ih unquoted.tail.tail.tail depth
    rw [nest_operator ends depth operator]
    exact ⟨.last operator here, later⟩
  | @more op op' t operator operator' rest ih =>
    have other : (op' :: ' ' :: t).head?.any isSeparator = false := isSeparator_operator operator'
    obtain ⟨here, later⟩ := ih unquoted.tail.tail depth
    rw [here_space other] at here
    rw [nest_separator depth _ rfl rfl] at later
    rw [nest_operator other depth operator]
    exact ⟨.more operator here, later⟩

theorem compactText_spaces {v : Text} (unquoted : Unquoted v) (spaces : OperatorSpaces v) :
    compactText v = ink v := by
  have inked := (inked_nest spaces.spaced unquoted 0).1
  rw [compactText_eq_compact, parse, inked [], ← parse, render_parse]

end AtomicCss.Arbitrary
