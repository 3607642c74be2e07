import AtomicCss.Proofs.Value.Calls
import AtomicCss.Proofs.Value.Compaction

/-! Canonical spacing, one character at a time. Which separators of a balanced text
go away can be seen from the characters next to them, so that the tree need not be
built: whether they stand at an edge, or at an operator between two single spaces. -/
namespace AtomicCss.Value
open Text

def isOperatorChar (c : Char) : Bool := c == '+' || c == '-' || c == '*' || c == '/'

theorem isOperatorChar_iff {c : Char} :
    isOperatorChar c = true ↔ c = '+' ∨ c = '-' ∨ c = '*' ∨ c = '/' := by
  simp [isOperatorChar, or_assoc]

/-- A class of characters that leaves out the operators. -/
theorem not_operator_of_class {p : Char → Bool} (outside : ['+', '-', '*', '/'].any p = false) {c : Char}
    (inside : p c = true) : isOperatorChar c = false := by
  refine Bool.eq_false_iff.mpr fun operator => ?_
  have listed : c ∈ ['+', '-', '*', '/'] := by simpa using isOperatorChar_iff.mp operator
  simp only [List.any_eq_true.mpr ⟨c, listed, inside⟩, Bool.true_eq_false] at outside

theorem isOperator_of_separator {c : Char} (separates : isSeparator c = true) :
    isOperatorChar c = false := not_operator_of_class (p := isSeparator) rfl separates

theorem isOperatorChar_letter {c : Char} (letter : c.isAlphanum = true) : isOperatorChar c = false :=
  not_operator_of_class (p := Char.isAlphanum) rfl letter

theorem isSeparator_operator {c : Char} (operator : isOperatorChar c = true) :
    isSeparator c = false := by
  cases separates : isSeparator c with
  | false => rfl
  | true => simp [isOperator_of_separator separates] at operator

theorem isSeparator_blank {c : Char} (blank : isBlank c = true) : isSeparator c = true := by
  simp [isSeparator, blank]

theorem isBlank_other {c : Char} (other : isSeparator c = false) : isBlank c = false := by
  cases blank : isBlank c with
  | false => rfl
  | true => simp [isSeparator_blank blank] at other

theorem isBlank_operator {c : Char} (operator : isOperatorChar c = true) : isBlank c = false := by
  rcases isOperatorChar_iff.mp operator with rfl | rfl | rfl | rfl <;> rfl

/-- What stands in front of a run of separators, as far as the run depends on it. -/
inductive Ahead where
  | edge
  /-- An operator with a single space in front of it. -/
  | spaced
  | other
  deriving DecidableEq, Repr

/-- What stands ahead after `c`, when the separators `run` came before it. -/
def Ahead.next (run : Text) (s : Scan) (c : Char) : Ahead :=
  if s.live c && c == '(' then .edge
  else if isOperatorChar c && run == [' '] then .spaced
  else .other

/-- Whether the text begins with an operator and then exactly one space. -/
def leadsSpaced : Text → Bool
  | op :: ' ' :: rest => isOperatorChar op && !(rest.head?.any isSeparator)
  | _ => false

/-- Nothing comes behind, or the end of the call. -/
def atEdge : Text → Bool
  | [] => true
  | c :: _ => c == ')'

/-- Whether the separators `run` go away between `ahead` and `behind`. -/
def isRunDropped (ahead : Ahead) (run behind : Text) : Bool :=
  (run.all isBlank && (ahead == .edge || atEdge behind)) ||
    (run == [' '] && (ahead == .spaced || leadsSpaced behind))

/-- The whole run of separators that goes on in `t`, and whether it goes away. -/
def dropsRun (ahead : Ahead) (run t : Text) : Bool :=
  isRunDropped ahead (run ++ t.takeWhile isSeparator) (t.dropWhile isSeparator)

/-- The text without the separators that go away, when the separators `run` have
just been read behind `ahead`. -/
def squeeze (ahead : Ahead) (run : Text) (s : Scan) : Text → Text
  | [] => []
  | c :: rest =>
    if s.live c && isSeparator c then
      (if dropsRun ahead run (c :: rest) then [] else [c]) ++ squeeze ahead (run ++ [c]) (s.next c) rest
    else c :: squeeze (.next run s c) [] (s.next c) rest

/-- Lists of siblings ahead that make no difference for what comes behind. -/
structure Alike (a b : List Node) : Prop where
  empty : a.isEmpty = b.isEmpty
  spaced : spacedOperator a = spacedOperator b
  head : headSpace a = headSpace b

theorem Alike.cons {a b : List Node} (alike : Alike a b) (n : Node) : Alike (n :: a) (n :: b) :=
  ⟨rfl, by rw [spacedOperator_cons, spacedOperator_cons, alike.head], rfl⟩

/-- It makes no difference which call stands ahead. -/
theorem Alike.call (name : Text) (args a : List Node) (name' : Text) (args' b : List Node) :
    Alike (.call name args :: a) (.call name' args' :: b) :=
  ⟨rfl, by simp [spacedOperator_cons, Node.isOperator], rfl⟩

theorem compact_congr {a b : List Node} (alike : Alike a b) (ns : List Node) :
    compact a ns = compact b ns := by
  induction ns generalizing a b with
  | nil => simp [compact]
  | cons n ns ih =>
    have same : isDropped a n ns = isDropped b n ns := by
      simp [isDropped, alike.empty, alike.spaced]
    rw [compact, compact, same, ih (alike.cons n)]

/-- A separator is live wherever no quote or escape is open. -/
theorem live_separator {c : Char} (separates : isSeparator c = true) : Scan.plain.live c = true := by
  have neutral := separator_neutral separates
  simp [Scan.live, neutral.1, neutral.2.1]

section

variable (depth : Nat) (t : Text)

/-- Only a separator comes first as one. -/
theorem here_other {s : Scan} {c : Char} (other : (s.live c && isSeparator c) = false) (u : Text)
    (ns : List Node) : (nest (lex depth s (c :: t))).here ≠ .separator u :: ns := by
  intro same
  rcases reading_cases depth s c with inward | ⟨rfl, rfl⟩ | ⟨rfl, rfl, outer, rfl⟩ |
    ⟨rfl, live, separates⟩
  · rw [nest_word depth t inward] at same
    dsimp only at same
    unfold spell at same
    split at same <;> cases same
  · rw [nest_opening, Nesting.openCall] at same
    split at same <;> cases same
  · rw [nest_closing] at same
    cases same
  · rw [live, separates] at other
    cases other

theorem here_separator {c : Char} (separates : isSeparator c = true) :
    ∃ ns, (nest (lex depth .plain (c :: t))).here =
      .separator ((c :: t).takeWhile isSeparator) :: ns := by
  rw [nest_separator depth t (live_separator separates) separates, List.takeWhile_cons_of_pos separates]
  induction t generalizing c with
  | nil => exact ⟨[], rfl⟩
  | cons d t ih =>
    cases more : isSeparator d with
    | true =>
      obtain ⟨ns, same⟩ := ih more
      rw [← nest_separator depth t (live_separator more) more] at same
      exact ⟨ns, by simp [same, space, more]⟩
    | false =>
      refine ⟨(nest (lex depth .plain (d :: t))).here, ?_⟩
      have first := here_other depth t (s := .plain) (c := d) (by simp [more])
      dsimp only
      unfold space
      split
      · exact absurd ‹_› (first _ _)
      · simp [more]

/-- The first sibling is one space where the text begins with exactly one. -/
theorem headSpace_nest :
    headSpace (nest (lex depth .plain t)).here = (t.takeWhile isSeparator == [' ']) := by
  cases t with
  | nil => rfl
  | cons c t =>
    cases separates : isSeparator c with
    | true =>
      obtain ⟨ns, same⟩ := here_separator depth t separates
      rw [same]
      rfl
    | false =>
      have first := here_other depth t (s := .plain) (c := c) (by simp [separates])
      rw [List.takeWhile_cons_of_neg (by simp [separates])]
      unfold headSpace
      split
      · rename_i n ns same
        cases n with
        | separator u => exact absurd same (first u ns)
        | _ => rfl
      · rfl

/-- A word that comes first begins with the first character. -/
theorem here_word {s : Scan} {c : Char} {u : Text} {ns : List Node}
    (same : (nest (lex depth s (c :: t))).here = .word u :: ns) : ∃ v, u = c :: v := by
  rcases reading_cases depth s c with inward | ⟨rfl, rfl⟩ | ⟨rfl, rfl, outer, rfl⟩ |
    ⟨rfl, live, separates⟩
  · rw [nest_word depth t inward] at same
    dsimp only at same
    unfold spell at same
    split at same <;> cases same <;> exact ⟨_, rfl⟩
  · rw [nest_opening, Nesting.openCall] at same
    split at same <;> cases same
    exact ⟨[], rfl⟩
  · rw [nest_closing] at same
    cases same
  · obtain ⟨ns', same'⟩ := here_separator depth t separates
    rw [same'] at same
    cases same

theorem isOperator_cons (c : Char) (u : Text) :
    (Node.word (c :: u)).isOperator = (isOperatorChar c && u.isEmpty) := by
  cases u <;> simp [Node.isOperator, isOperatorChar]

theorem leadsSpaced_cons (c : Char) :
    leadsSpaced (c :: t) = (isOperatorChar c && t.takeWhile isSeparator == [' ']) := by
  have space : isSeparator ' ' = true := rfl
  rcases t with _ | ⟨d, t⟩
  · simp [leadsSpaced]
  · by_cases blank : d = ' '
    · subst blank
      cases t with
      | nil => simp [leadsSpaced, space]
      | cons e t => cases other : isSeparator e <;> simp [leadsSpaced, space, other]
    · have alone : ((d :: t).takeWhile isSeparator == [' ']) = false := by
        rw [List.takeWhile_cons]
        split <;> simp [blank]
      rw [alone, Bool.and_false, leadsSpaced]
      simp [blank]

theorem operator_neutral {c : Char} (operator : isOperatorChar c = true) : Neutral c := by
  rcases isOperatorChar_iff.mp operator with rfl | rfl | rfl | rfl <;> decide

theorem operator_inward {s : Scan} {c : Char} (operator : isOperatorChar c = true) :
    Inward depth s c := by
  intro _
  rcases isOperatorChar_iff.mp operator with rfl | rfl | rfl | rfl <;> exact ⟨by decide, by simp, rfl⟩

/-- The siblings begin with an operator and a space where the text does. -/
theorem spacedOperator_nest : spacedOperator (nest (lex depth .plain t)).here = leadsSpaced t := by
  cases t with
  | nil => rfl
  | cons c t =>
    rw [leadsSpaced_cons, ← headSpace_nest depth]
    cases operator : isOperatorChar c with
    | false =>
      cases first : (nest (lex depth .plain (c :: t))).here with
      | nil => rfl
      | cons n ns =>
        rw [spacedOperator_cons]
        cases n with
        | word u =>
          obtain ⟨v, rfl⟩ := here_word depth t first
          simp [isOperator_cons, operator]
        | _ => rfl
    | true =>
      have settled : Scan.plain.next c = .plain := next_neutral (by trivial) (operator_neutral operator)
      rw [nest_word depth t (operator_inward depth operator), settled]
      dsimp only
      unfold spell
      split
      · rename_i u ns first
        rw [first, spacedOperator_cons, isOperator_cons]
        cases t with
        | nil => cases first
        | cons d t =>
          obtain ⟨v, rfl⟩ := here_word depth t first
          simp [headSpace, Node.isSpace]
      · rename_i first
        rw [first]
        simp [spacedOperator_cons, headSpace, Node.isOperator, Node.isSpace]
      · simp [spacedOperator_cons, isOperator_cons, operator]

end

section

variable {t : Text} (other : t.head?.any isSeparator = false) (depth : Nat)

include other

/-- A space stands alone in front of what is no separator. -/
theorem here_space : (nest (lex depth .plain (' ' :: t))).here =
    .separator [' '] :: (nest (lex depth .plain t)).here := by
  rw [nest_separator depth t rfl rfl]
  dsimp only
  unfold space
  split
  · rename_i first
    cases t with
    | nil => cases first
    | cons c t =>
      have other : isSeparator c = false := by simpa using other
      exact absurd first (here_other depth t (by simp [other]) _ _)
  · rfl

theorem nest_operator {op : Char} (operator : isOperatorChar op = true) :
    nest (lex depth .plain (' ' :: op :: ' ' :: t)) =
      { nest (lex depth .plain t) with
        here := .separator [' '] :: .word [op] :: .separator [' '] :: (nest (lex depth .plain t)).here } := by
  have next : Scan.plain.next op = .plain := next_neutral (by trivial) (operator_neutral operator)
  have after : (nest (lex depth .plain (' ' :: t))).after = (nest (lex depth .plain t)).after := by
    rw [nest_separator depth t rfl rfl]
  rw [nest_separator depth _ rfl rfl, nest_word depth _ (operator_inward depth operator), next,
    here_space other]
  dsimp only
  rw [after]
  rfl

end

/-- In a balanced text no siblings are left where the text or the call ends. -/
theorem here_isEmpty {s' : Scan} {closers : List Char} {t : Text}
    (reached : track (.plain, closers) t = some (s', [])) :
    (nest (lex (closers.count ')') .plain t)).here.isEmpty = atEdge t := by
  cases t with
  | nil => rfl
  | cons c t =>
    rcases reading_cases (closers.count ')') .plain c with inward | ⟨-, rfl⟩ | ⟨-, rfl, outer, deep⟩ |
      ⟨-, live, separates⟩
    · have other : c ≠ ')' := by
        rintro rfl
        rw [track_cons, Option.bind_eq_some_iff] at reached
        obtain ⟨⟨_, below⟩, step, -⟩ := reached
        obtain ⟨-, rfl⟩ := closing_turn step rfl
        exact (inward rfl).2.1 ⟨rfl, by simp⟩
      rw [nest_word _ t inward]
      dsimp only
      unfold spell
      split <;> simp [atEdge, other]
    · rw [nest_opening, Nesting.openCall]
      split <;> rfl
    · rw [deep, nest_closing]
      rfl
    · obtain ⟨ns, same⟩ := here_separator (closers.count ')') t separates
      have other : c ≠ ')' := by
        rintro rfl
        cases separates
      simp [same, atEdge, other]

/-- What has been read of the first of the siblings. -/
inductive Pending where
  | none
  | word (text : Text)
  | separator (text : Text)

namespace Pending

/-- The siblings with what was read before. -/
def join : Pending → List Node → List Node
  | none, ns => ns
  | word p, ns => p.foldr spell ns
  | separator r, ns => r.foldr space ns

/-- What is written of it, with `t` behind it. -/
def text (ahead : Ahead) : Pending → Text → Text
  | none, _ => []
  | word p, _ => p
  | separator r, t => if dropsRun ahead r t then [] else r

end Pending

/-- The siblings ahead are as the reader of characters describes them. -/
structure Describes (ahead : Ahead) (before : List Node) : Prop where
  edge : before.isEmpty = (ahead == .edge)
  spaced : spacedOperator before = (ahead == .spaced)

/-- The same in the middle of a sibling. -/
inductive Meets : Ahead → Text → Pending → List Node → Prop
  | none {ahead : Ahead} {before : List Node} (describes : Describes ahead before)
    (word_ahead : headSpace before = false) : Meets ahead [] .none before
  | word {ahead : Ahead} {p : Text} {before : List Node} (some_left : p ≠ [])
    (describes : Describes ahead (.word p :: before)) : Meets ahead [] (.word p) before
  | separator {ahead : Ahead} {r : Text} {before : List Node} (some_left : r ≠ [])
    (describes : Describes ahead before) : Meets ahead r (.separator r) before

theorem isDropped_separator {ahead : Ahead} {before after : List Node} {r behind : Text}
    (describes : Describes ahead before) (some_left : r ≠ []) (edge : after.isEmpty = atEdge behind)
    (spaced : spacedOperator after = leadsSpaced behind) :
    isDropped before (.separator r) after = isRunDropped ahead r behind := by
  simp [isDropped, isRunDropped, Node.isBlankSeparator, Node.isSpace, describes.edge,
    describes.spaced, edge, spaced, List.isEmpty_eq_false_iff.mpr some_left]

theorem compact_word (before : List Node) (p : Text) (ns : List Node) :
    compact before (.word p :: ns) = .word p :: compact (.word p :: before) ns := by
  simp [compact, isDropped, Node.isBlankSeparator, Node.isSpace, compactNode]

theorem compact_call (before : List Node) (name : Text) (args ns : List Node) :
    compact before (.call name args :: ns) =
      .call name (compact [] args) :: compact (.call name args :: before) ns := by
  simp [compact, isDropped, Node.isBlankSeparator, Node.isSpace, compactNode]

theorem compact_separator (before : List Node) (t : Text) (ns : List Node) :
    compact before (.separator t :: ns) =
      (if isDropped before (.separator t) ns then [] else [.separator t]) ++
        compact (.separator t :: before) ns := by
  rw [compact]
  split <;> simp [compactNode]

theorem render_word {p : Text} (before : List Node) {ns : List Node} (some_left : p ≠ [])
    (fresh : ∀ c, spell c ns = .word [c] :: ns) :
    render (compact before (p.foldr spell ns)) = p ++ render (compact (.word p :: before) ns) := by
  rw [foldr_spell some_left fresh, compact_word, render_cons, renderNode_word]

/-- Behind a call it makes no difference which call it was. -/
theorem render_call (before : List Node) (name : Text) (args ns : List Node) :
    render (compact before (.call name args :: ns)) =
      name ++ '(' :: (render (compact [] args) ++ ')' :: render (compact [.call [] []] ns)) := by
  have behind : compact (.call name args :: before) ns = compact [.call [] []] ns :=
    compact_congr (.call name args before [] [] []) ns
  rw [compact_call, behind]
  simp

/-- Separators are judged by what stands ahead and by the text behind them. -/
theorem render_separator {s' : Scan} {closers : List Char} {t r : Text} {ahead : Ahead}
    {before : List Node} (reached : track (.plain, closers) t = some (s', []))
    (ends : t.takeWhile isSeparator = []) (some_left : r ≠ []) (describes : Describes ahead before) :
    render (compact before (r.foldr space (nest (lex (closers.count ')') .plain t)).here)) =
      (if dropsRun ahead r t then [] else r) ++
        render (compact (.separator r :: before) (nest (lex (closers.count ')') .plain t)).here) := by
  have fresh (c : Char) : space c (nest (lex (closers.count ')') .plain t)).here =
      .separator [c] :: (nest (lex (closers.count ')') .plain t)).here := by
    unfold space
    split
    · rename_i first
      cases t with
      | nil => cases first
      | cons d t =>
        have other : isSeparator d = false := by
          cases separates : isSeparator d with
          | false => rfl
          | true => simp [separates] at ends
        exact absurd first (here_other _ t (by simp [other]) _ _)
    · rfl
  have behind : t.dropWhile isSeparator = t := by
    have whole := List.takeWhile_append_dropWhile (p := isSeparator) (l := t)
    rwa [ends, List.nil_append] at whole
  rw [foldr_space some_left fresh, compact_separator, isDropped_separator describes some_left
    (here_isEmpty reached) (spacedOperator_nest _ t), dropsRun, ends, List.append_nil, behind]
  split <;> simp

/-- At the end of the siblings only what was read before is left. -/
theorem render_end {t run : Text} {ahead : Ahead} {pending : Pending} {before : List Node}
    (edge : t = [] ∨ ∃ rest, t = ')' :: rest) (meets : Meets ahead run pending before) :
    render (compact before (pending.join [])) = pending.text ahead t := by
  cases meets with
  | none => simp [Pending.join, Pending.text, compact]
  | word some_left =>
    rw [Pending.join, render_word before some_left fun _ => rfl]
    simp [Pending.text, compact]
  | separator some_left describes =>
    have dropped : isDropped before (.separator run) [] = dropsRun ahead run t := by
      rcases edge with rfl | ⟨rest, rfl⟩
      · have unspaced : spacedOperator [] = leadsSpaced [] := rfl
        rw [isDropped_separator describes some_left rfl unspaced]
        simp [dropsRun]
      · have unspaced : spacedOperator [] = leadsSpaced (')' :: rest) := by
          rw [leadsSpaced_cons]
          rfl
        rw [isDropped_separator describes some_left rfl unspaced]
        simp [dropsRun, show isSeparator ')' = false from rfl]
    rw [Pending.join, foldr_space some_left fun _ => rfl, compact_separator, dropped, Pending.text]
    split <;> simp [compact]

/-- The siblings behind each closing. -/
def compactAfter (after : List (List Node)) : Text :=
  after.flatMap fun ns => ')' :: render (compact [.call [] []] ns)

theorem dropsRun_cons {ahead : Ahead} {run rest : Text} {c : Char} (separates : isSeparator c = true) :
    dropsRun ahead run (c :: rest) = dropsRun ahead (run ++ [c]) rest := by
  simp [dropsRun, separates]

theorem inward_opens {depth : Nat} {s : Scan} {c : Char} (inward : Inward depth s c) :
    (s.live c && c == '(') = false := by
  cases live : s.live c with
  | false => rfl
  | true => simpa using (inward live).1

theorem inward_separates {depth : Nat} {s : Scan} {c : Char} (inward : Inward depth s c) :
    (s.live c && isSeparator c) = false := by
  cases live : s.live c with
  | false => rfl
  | true => simpa using (inward live).2.2

/-- The first character of a word decides on what stands ahead. -/
theorem describes_first {depth : Nat} {s : Scan} {c : Char} {run : Text} (before : List Node)
    (inward : Inward depth s c) (head : headSpace before = (run == [' '])) :
    Describes (.next run s c) (.word [c] :: before) := by
  have opens := inward_opens inward
  have spaced : spacedOperator (.word [c] :: before) = (isOperatorChar c && run == [' ']) := by
    rw [spacedOperator_cons, isOperator_cons, head]
    simp
  rw [Ahead.next, if_neg (by simp [opens])]
  constructor
  · split <;> rfl
  · rw [spaced]
    split
    · rename_i operator
      rw [operator]
      rfl
    · rename_i operator
      rw [Bool.eq_false_iff.mpr operator]
      rfl

/-- The ones behind it do not make it an operator. -/
theorem describes_later {depth : Nat} {s : Scan} {c : Char} {p : Text} (before : List Node)
    (inward : Inward depth s c) (some_left : p ≠ []) :
    Describes (.next [] s c) (.word (p ++ [c]) :: before) := by
  have opens := inward_opens inward
  obtain ⟨d, p, rfl⟩ := List.exists_cons_of_ne_nil some_left
  have longer : (p ++ [c]).isEmpty = false := by simp
  have single : spacedOperator (.word (d :: p ++ [c]) :: before) = false := by
    rw [spacedOperator_cons, List.cons_append, isOperator_cons, longer]
    simp
  rw [Ahead.next, if_neg (by simp [opens]), if_neg (by simp)]
  exact ⟨rfl, single⟩

/-- Squeezing the text is compacting its siblings, whatever was read before. -/
def Squeezes (depth : Nat) (s : Scan) (t : Text) : Prop :=
  ∀ ⦃ahead : Ahead⦄ ⦃run : Text⦄ ⦃pending : Pending⦄ ⦃before : List Node⦄,
    Meets ahead run pending before → (∀ r, pending = .separator r → s = .plain) →
      pending.text ahead t ++ squeeze ahead run s t =
        render (compact before (pending.join (nest (lex depth s t)).here)) ++
          compactAfter (nest (lex depth s t)).after

theorem squeezes_nil (depth : Nat) (s : Scan) : Squeezes depth s [] := by
  intro ahead run pending before meets _
  rw [show nest (lex depth s []) = ⟨[], []⟩ from rfl, render_end (.inl rfl) meets]
  simp [squeeze, compactAfter]

theorem squeezes_inward {s s' : Scan} {closers : List Char} {c : Char} {t : Text}
    (reached : track (s, closers) (c :: t) = some (s', []))
    (inward : Inward (closers.count ')') s c) (later : Squeezes (closers.count ')') (s.next c) t) :
    Squeezes (closers.count ')') s (c :: t) := by
  intro ahead run pending before meets settled
  have apart := inward_separates inward
  rw [squeeze, if_neg (by simp [apart])]
  cases meets with
  | none describes word_ahead =>
    have no_space : headSpace before = (([] : Text) == [' ']) := by simp [word_ahead]
    have same := later (.word (by simp) (describes_first before inward no_space)) (by simp)
    rw [nest_word _ t inward]
    simpa [Pending.text, Pending.join] using same
  | @word p before some_left describes =>
    have same := later (.word (by simp) (describes_later before inward some_left)) (by simp)
    rw [nest_word _ t inward]
    simpa [Pending.text, Pending.join] using same
  | separator some_left describes =>
    obtain rfl := settled _ rfl
    have other : isSeparator c = false := by
      cases separates : isSeparator c with
      | false => rfl
      | true => simp [live_separator separates, separates] at apart
    have same := later (.word (by simp)
      (describes_first (.separator run :: before) inward rfl)) (by simp)
    rw [Pending.join, render_separator reached (by simp [other]) some_left describes,
      nest_word _ t inward]
    simpa [Pending.text, Pending.join] using same

theorem squeezes_opening {s' : Scan} {closers : List Char} {t : Text}
    (reached : track (.plain, closers) ('(' :: t) = some (s', []))
    (later : Squeezes (closers.count ')' + 1) .plain t) :
    Squeezes (closers.count ')') .plain ('(' :: t) := by
  intro ahead run pending before meets _
  obtain ⟨fits, -⟩ := fits_nest (show track (.plain, ')' :: closers) t = some (s', []) from reached)
  have first : Meets .edge [] .none [] := .none ⟨rfl, rfl⟩ rfl
  have inner := later first (by simp)
  have opened : Scan.plain.next '(' = .plain := rfl
  have head : Ahead.next run .plain '(' = .edge := rfl
  have separated (some_left : run ≠ []) (describes : Describes ahead before) :=
    render_separator reached rfl some_left describes
  rw [squeeze, if_neg (by simp [show isSeparator '(' = false from rfl]), opened, head]
  simp only [nest_opening, List.count_cons_self] at fits inner separated ⊢
  generalize nest (lex (closers.count ')' + 1) .plain t) = g at fits inner separated ⊢
  obtain ⟨here, calls⟩ := g
  obtain ⟨siblings, after, rfl, -, -⟩ := fits_opened fits
  have inside : squeeze .edge [] .plain t =
      render (compact [] here) ++ ')' :: render (compact [.call [] []] siblings) ++
        compactAfter after := by
    simpa [Pending.text, Pending.join, compactAfter] using inner
  dsimp only [Nesting.openCall] at separated ⊢
  rw [inside]
  cases meets with
  | none => simp [Pending.text, Pending.join, render_call]
  | word => simp [Pending.text, Pending.join, spell_call, render_call]
  | separator some_left describes =>
    rw [Pending.join, separated some_left describes, render_call]
    simp [Pending.text]

theorem squeezes_closing {depth : Nat} {t : Text} (later : Squeezes depth .plain t) :
    Squeezes (depth + 1) .plain (')' :: t) := by
  intro ahead run pending before meets _
  have other : isSeparator ')' = false := rfl
  have settled : Scan.plain.next ')' = .plain := rfl
  have behind : Ahead.next run .plain ')' = .other := by simp [Ahead.next, isOperatorChar]
  have call : Meets .other [] .none [.call [] []] := .none ⟨rfl, rfl⟩ rfl
  have same := later call (by simp)
  rw [squeeze, other, Bool.and_false, if_neg (by simp), behind, nest_closing, settled]
  dsimp only [Nesting.close]
  rw [render_end (.inr ⟨t, rfl⟩) meets]
  simpa [compactAfter, Pending.text, Pending.join] using same

theorem squeezes_separator {depth : Nat} {c : Char} {t : Text} (separates : isSeparator c = true)
    (later : Squeezes depth .plain t) : Squeezes depth .plain (c :: t) := by
  intro ahead run pending before meets _
  have live := live_separator separates
  rw [squeeze, if_pos (by simp [live, separates]), Scan.next_of_live live,
    nest_separator _ t live separates]
  dsimp only
  cases meets with
  | none describes =>
    have single : Meets ahead [c] (.separator [c]) before := .separator (by simp) describes
    have same := later single (by simp)
    rw [dropsRun_cons separates]
    simpa [Pending.text, Pending.join] using same
  | @word p before some_left describes =>
    have single : Meets ahead [c] (.separator [c]) (.word p :: before) :=
      .separator (by simp) describes
    have same := later single (by simp)
    have fresh (d : Char) : spell d (space c (nest (lex depth .plain t)).here) =
        .word [d] :: space c (nest (lex depth .plain t)).here := by
      fun_cases space c (nest (lex depth .plain t)).here <;> rfl
    rw [dropsRun_cons separates, Pending.join, render_word before some_left fresh]
    simpa [Pending.text, Pending.join] using same
  | separator some_left describes =>
    have longer : Meets ahead (run ++ [c]) (.separator (run ++ [c])) before :=
      .separator (by simp) describes
    have same := later longer (by simp)
    rw [Pending.text, dropsRun_cons separates]
    cases dropped : dropsRun ahead (run ++ [c]) t <;>
      simpa [Pending.text, Pending.join, dropped] using same

/-- It is so for every text that leaves nothing open. -/
theorem squeeze_nest {s s' : Scan} {closers : List Char} {t : Text}
    (reached : track (s, closers) t = some (s', [])) : Squeezes (closers.count ')') s t := by
  induction t generalizing s closers with
  | nil => exact squeezes_nil _ s
  | cons c t ih =>
    have whole := reached
    rw [track_cons, Option.bind_eq_some_iff] at reached
    obtain ⟨⟨s₁, closers₁⟩, step, after⟩ := reached
    have later := ih after
    rcases reading_cases (closers.count ')') s c with inward | ⟨rfl, rfl⟩ | ⟨rfl, rfl, -⟩ |
      ⟨rfl, -, separates⟩
    · obtain ⟨rfl, opening, closing⟩ := inward_turn step inward
      rw [count_turn step opening closing] at later
      exact squeezes_inward whole inward later
    · cases step
      rw [List.count_cons_self] at later
      exact squeezes_opening whole later
    · obtain ⟨rfl, rfl⟩ := closing_turn step rfl
      rw [List.count_cons_self]
      exact squeezes_closing later
    · rw [turn_neutral (by trivial) (separator_neutral separates)] at step
      cases step
      exact squeezes_separator separates later

/-- The canonical spacing of a balanced text. -/
theorem compactText_eq_squeeze {t : Text} (holds : balanced t = true) :
    compactText t = squeeze .edge [] .plain t := by
  obtain ⟨s, reached, -⟩ := balanced_iff.mp holds
  have first : Meets .edge [] .none [] := .none ⟨rfl, rfl⟩ rfl
  have whole := squeeze_nest reached first (by simp)
  obtain ⟨fits, -⟩ := fits_nest reached
  have nothing : (nest (lex 0 .plain t)).after = [] :=
    List.eq_nil_of_length_eq_zero (fits.count_eq.symm.trans rfl)
  simpa [Pending.text, Pending.join, compactAfter, nothing, compactText_eq_compact, parse] using whole.symm

end AtomicCss.Value
