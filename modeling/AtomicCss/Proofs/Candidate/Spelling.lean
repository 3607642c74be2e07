import AtomicCss.Candidate.Grammar
import AtomicCss.Proofs.Variant.Spelling
import Mathlib.Data.List.Forall2

/-! The grammar of candidates as a relation between texts and what they spell.
A text is read as a candidate exactly when the grammar spells it. -/
namespace AtomicCss
open Text

namespace UtilityTerm

theorem nameLike_of_isRoot {t : Text} (root : isRoot t = true) :
    NameLike t ∧ t ≠ [] ∧ t.head? ≠ some '-' := by
  cases t with
  | nil => simp [isRoot] at root
  | cons c rest =>
    simp only [isRoot, Bool.and_eq_true, Bool.or_eq_true, beq_iff_eq, List.all_eq_true] at root
    have letter : c.isAlphanum = true := isAlphanum_of_lower root.1
    refine ⟨.cons (by simp [isNameChar, letter]) fun d member => ?_, by simp, ?_⟩
    · have part := root.2 d member
      simp only [isNameChar, Bool.or_eq_true, beq_iff_eq]
      rcases part with ((alnum | dash) | low) | dot <;> simp_all
    · rintro head
      cases head
      exact absurd root.1 (by decide)

theorem nameLike_of_isPropertyName {t : Text} (name : isPropertyName t = true) : NameLike t := by
  cases t with
  | nil => simp [isPropertyName] at name
  | cons c rest =>
    simp only [isPropertyName, Bool.and_eq_true, Bool.or_eq_true, beq_iff_eq, List.all_eq_true]
      at name
    refine .cons ?_ fun d member => ?_
    · rcases name.1 with rfl | lower
      · rfl
      · simp [isNameChar, isAlphanum_of_lower lower]
    · have part := name.2 d member
      simp only [isNameChar, Bool.or_eq_true, beq_iff_eq]
      rcases part with (alnum | dash) | low <;> simp_all

/-- A utility without its sign and its modifier, which are given. -/
inductive MainSpelt (negative : Bool) : Text → Option Argument → UtilityTerm → Prop
  | static {root : Text} (shape : isRoot root = true) (whole : '-' ∉ root) :
    MainSpelt negative root none (.static root negative)
  | bare {root : Text} {m : Argument} (shape : isRoot root = true) (whole : '-' ∉ root) :
    MainSpelt negative root (some m) (.functional root none (some m) negative)
  | named {root value : Text} (m : Option Argument) (shape : isRoot root = true)
    (named : isNamedValue value = true) :
    MainSpelt negative (root ++ '-' :: value) m
      (.functional root (some (.named value)) m negative)
  | arbitrary {root inner : Text} {v : UtilityValue} (m : Option Argument)
    (shape : isRoot root = true) (closed : Closed inner) (read : arbitraryValue? inner = some v) :
    MainSpelt negative (root ++ '-' :: '[' :: (inner ++ [']'])) m
      (.functional root (some v) m negative)

namespace MainSpelt

variable {negative : Bool} {t : Text} {m : Option Argument} {u : UtilityTerm}

/-- The text begins with a letter. -/
theorem head_eq (spelt : MainSpelt negative t m u) :
    ∃ c rest, t = c :: rest ∧ isNameChar c = true ∧ c ≠ '-' := by
  have lead {root : Text} (rest : Text) (shape : isRoot root = true) :
      ∃ c behind, root ++ rest = c :: behind ∧ isNameChar c = true ∧ c ≠ '-' := by
    obtain ⟨name, some_left, dash⟩ := nameLike_of_isRoot shape
    obtain ⟨c, behind, rfl⟩ := List.exists_cons_of_ne_nil some_left
    exact ⟨c, behind ++ rest, rfl, name c (by simp), by simpa using dash⟩
  cases spelt with
  | static shape _ => simpa using lead [] shape
  | bare shape _ => simpa using lead [] shape
  | named _ shape => exact lead _ shape
  | arbitrary _ shape => exact lead _ shape

theorem solid (spelt : MainSpelt negative t m u) {sep : Char} (outside : isNameChar sep = false) :
    Solid sep t := by
  have dash : Solid sep ['-'] := .neutral (by decide) (ne_of_isNameChar (by decide) outside)
  cases spelt with
  | static shape _ => exact (nameLike_of_isRoot shape).1.solid outside
  | bare shape _ => exact (nameLike_of_isRoot shape).1.solid outside
  | named _ shape named =>
    exact ((nameLike_of_isRoot shape).1.solid outside).append
      (dash.append ((nameLike_of_isNamedValue named).1.solid outside))
  | arbitrary _ shape closed _ =>
    exact ((nameLike_of_isRoot shape).1.solid outside).append (dash.append (.bracketed closed))

theorem complete (spelt : MainSpelt negative t m u) : ofMain? t m negative = some u := by
  cases spelt with
  | static shape whole =>
    have name := (nameLike_of_isRoot shape).1
    simp [ofMain?, name.getLast_ne, isNameChar, splitLast_eq_none.mpr whole, shape]
  | bare shape whole =>
    have name := (nameLike_of_isRoot shape).1
    simp [ofMain?, name.getLast_ne, isNameChar, splitLast_eq_none.mpr whole, shape]
  | @named root value _ shape named =>
    obtain ⟨name, some_left, whole⟩ := nameLike_of_isNamedValue named
    have last : (root ++ '-' :: value).getLast? ≠ some ']' :=
      ((nameLike_of_isRoot shape).1.append (.cons (by decide) name)).getLast_ne (by decide)
    rw [ofMain?, if_neg last, splitLast_eq_some.mpr ⟨rfl, whole⟩]
    simp [shape, named]
  | @arbitrary root inner v _ shape closed read =>
    obtain ⟨last, found, stripped⟩ := split_rooted (nameLike_of_isRoot shape).1 closed
    rw [ofMain?, if_pos last, found]
    simp [stripped, shape, read]

theorem read (holds : balanced t = true) (read : ofMain? t m negative = some u) :
    MainSpelt negative t m u := by
  unfold ofMain? at read
  split at read
  · obtain ⟨⟨before, inner⟩, found, cut⟩ := Option.bind_eq_some_iff.mp read
    obtain ⟨root, stripped, value⟩ := Option.bind_eq_some_iff.mp cut
    obtain rfl := stripEnd_eq_some.mp stripped
    obtain ⟨rfl, -, inside⟩ := closed_of_splitClosing holds found
    split at value
    · rename_i shape
      obtain ⟨v, decoded, rfl⟩ := Option.map_eq_some_iff.mp value
      simpa using MainSpelt.arbitrary m shape inside decoded
    · cases value
  · split at read
    · rename_i root value cut
      split at read
      · rename_i shape
        cases read
        obtain ⟨rfl, -⟩ := splitLast_eq_some.mp cut
        exact .named m shape.1 shape.2
      · cases read
    · rename_i cut
      have whole := splitLast_eq_none.mp cut
      split at read
      · cases read
      · rename_i shape
        split at read
        · rename_i known
          cases read
          obtain ⟨m, rfl⟩ := Option.isSome_iff_exists.mp known
          exact .bare (by simpa using shape) whole
        · rename_i unknown
          cases read
          obtain rfl : m = none := by simpa using unknown
          exact .static (by simpa using shape) whole

end MainSpelt

/-- A utility with its sign and its modifier, or a declaration between brackets. -/
inductive Spelt : Text → UtilityTerm → Prop
  | main (negative : Bool) {t rest : Text} {m : Option Argument} {u : UtilityTerm}
    (main : MainSpelt negative t m u) (modifier : ModifierSpelt rest m) :
    Spelt ((if negative then ['-'] else []) ++ t ++ rest) u
  | property {name inner v rest : Text} {m : Option Argument}
    (shape : isPropertyName name = true) (closed : Closed inner)
    (read : Arbitrary.decodeTrimmed inner = some v) (modifier : ModifierSpelt rest m) :
    Spelt ('[' :: (name ++ ':' :: inner ++ [']']) ++ rest) (.property name v m)

namespace Spelt

theorem solid {t : Text} {u : UtilityTerm} (spelt : Spelt t u) : Solid ':' t := by
  cases spelt with
  | main negative main modifier =>
    have sign : Solid ':' (if negative then ['-'] else []) := by
      cases negative
      · exact .nil
      · exact .neutral (by decide) (by decide)
    exact (sign.append (main.solid (by decide))).append modifier.solid
  | property shape closed _ modifier =>
    have name := nameLike_of_isPropertyName shape
    have inside := name.closed.append ((closed_neutral (c := ':') (by decide)).append closed)
    exact (Solid.bracketed inside).append modifier.solid

/-- Such a text begins with a letter, a dash or a bracket. -/
theorem head_ne {t : Text} {u : UtilityTerm} (spelt : Spelt t u) :
    t ≠ [] ∧ t.head? ≠ some '!' := by
  cases spelt with
  | main negative main _ =>
    obtain ⟨c, rest, rfl, name, -⟩ := main.head_eq
    have other := ne_of_isNameChar name (d := '!') (by decide)
    cases negative <;> simp [other]
  | property => simp

theorem getLast_ne {t : Text} {u : UtilityTerm} (spelt : Spelt t u) : t.getLast? ≠ some '!' := by
  have named {a b : Text} (name : NameLike b) (some_left : b ≠ []) :
      (a ++ b).getLast? ≠ some '!' := by
    rw [List.getLast?_append_of_ne_nil _ some_left]
    exact name.getLast_ne (by decide)
  have modified {a rest : Text} {m : Option Argument} (modifier : ModifierSpelt rest m)
      (main : a.getLast? ≠ some '!') : (a ++ rest).getLast? ≠ some '!' := by
    cases modifier with
    | none => simpa using main
    | @named t known =>
      obtain ⟨name, some_left⟩ := nameLike_of_isNamedModifier known
      simpa using named (a := a ++ ['/']) name some_left
    | arbitrary => simp [List.getLast?_append, List.getLast?_cons]
  cases spelt with
  | main negative main modifier =>
    refine modified modifier ?_
    cases main with
    | static shape => exact named (nameLike_of_isRoot shape).1 (nameLike_of_isRoot shape).2.1
    | bare shape => exact named (nameLike_of_isRoot shape).1 (nameLike_of_isRoot shape).2.1
    | @named root value _ _ known =>
      obtain ⟨name, some_left, -⟩ := nameLike_of_isNamedValue known
      simpa using named (a := (if negative then ['-'] else []) ++ root ++ ['-']) name some_left
    | arbitrary => simp [List.getLast?_append, List.getLast?_cons]
  | property _ _ _ modifier =>
    exact modified modifier (by simp [List.getLast?_append, List.getLast?_cons])

theorem complete {t : Text} {u : UtilityTerm} (spelt : Spelt t u) : parse? t = some u := by
  cases spelt with
  | @main negative t rest m _ main modifier =>
    have sign : Solid '/' ((if negative then ['-'] else []) ++ t) := by
      refine .append ?_ (main.solid (by decide))
      cases negative
      · exact .nil
      · exact .neutral (by decide) (by decide)
    rw [parse?, modifier.split sign]
    obtain ⟨c, behind, rfl, name, dash⟩ := main.head_eq
    have bracket := ne_of_isNameChar name (d := '[') (by decide)
    cases negative
    · simpa [bracket, dash] using main.complete
    · simpa using main.complete
  | @property name inner v rest m shape closed read modifier =>
    have names := nameLike_of_isPropertyName shape
    have inside : Closed (name ++ ':' :: inner) :=
      names.closed.append
        ((closed_neutral (c := ':') (by decide)).append closed)
    have bracketed := (bracketed_eq_some (closed_bracketed inside).balanced).mpr ⟨rfl, inside⟩
    have cut : splitFirst ':' (name ++ ':' :: inner) = some (name, inner) :=
      splitFirst_eq_some.mpr ⟨rfl, names.not_mem (by decide)⟩
    simp only [List.append_assoc, List.cons_append] at bracketed
    rw [parse?, modifier.split (Solid.bracketed inside)]
    simp [property?, bracketed, cut, shape, read]

theorem read {t : Text} {u : UtilityTerm} (holds : balanced t = true) (read : parse? t = some u) :
    Spelt t u := by
  obtain ⟨⟨main, m⟩, found, rest⟩ := Option.bind_eq_some_iff.mp read
  obtain ⟨modifier, rfl, spelt, below⟩ := splitModifier_eq_some holds found
  dsimp only at rest
  split at rest
  · obtain ⟨inner, bracketed, cut⟩ := Option.bind_eq_some_iff.mp rest
    obtain ⟨⟨name, value⟩, split, valued⟩ := Option.bind_eq_some_iff.mp cut
    obtain ⟨whole, inside⟩ := (bracketed_eq_some below).mp bracketed
    obtain ⟨rfl, -⟩ := splitFirst_eq_some.mp split
    dsimp only at valued
    split at valued
    · rename_i shape
      obtain ⟨v, decoded, rfl⟩ := Option.map_eq_some_iff.mp valued
      have names := nameLike_of_isPropertyName shape
      have lead := names.closed.append (closed_neutral (c := ':') (by decide))
      have closed : Closed value := by
        rw [← List.singleton_append, ← List.append_assoc] at inside
        unfold Closed at inside
        rwa [track_append_of lead] at inside
      rw [whole]
      exact .property shape closed decoded spelt
    · cases valued
  · rename_i t
    have minus : balanced t = true := by
      rwa [← List.singleton_append, (closed_neutral (by decide)).balanced_append] at below
    exact .main true (.read minus rest) spelt
  · exact .main false (.read below rest) spelt

end Spelt
end UtilityTerm

namespace Candidate

/-- The class prefix as the first of the texts between colons. -/
def leadTexts : Option Text → List Text
  | none | some [] => []
  | some p => [p]

/-- A utility with the mark of importance at one end, or without it. -/
def Marked (base : Text) (important : Bool) (t : Text) : Prop :=
  if important then t = base ++ ['!'] ∨ t = '!' :: base else t = base

theorem splitImportant_of_marked {base t : Text} {u : UtilityTerm} {important : Bool}
    (spelt : UtilityTerm.Spelt base u) (marked : Marked base important t) :
    splitImportant? t = some (base, important) := by
  obtain ⟨some_left, first⟩ := spelt.head_ne
  have last := spelt.getLast_ne
  have head (rest : Text) : (base ++ rest).head? ≠ some '!' := by
    rwa [List.head?_append_of_ne_nil _ some_left]
  have start (rest : Text) : stripStart? ['!'] (base ++ rest) = none :=
    stripStart_eq_none fun ⟨behind, whole⟩ => head rest (by rw [← whole]; rfl)
  have ends (front : Text) : stripEnd? ['!'] (front ++ base) = none :=
    stripEnd_eq_none fun ⟨before, whole⟩ => by
      have tail : (front ++ base).getLast? = some '!' := by rw [← whole]; simp
      exact last (by rwa [List.getLast?_append_of_ne_nil _ some_left] at tail)
  unfold Marked at marked
  cases important with
  | false =>
    obtain rfl : t = base := by simpa using marked
    have first := start []
    have second := ends []
    simp only [List.append_nil, List.nil_append] at first second
    simp [splitImportant?, first, second]
  | true =>
    rcases (by simpa using marked : t = base ++ ['!'] ∨ t = '!' :: base) with rfl | rfl
    · have marks : stripEnd? ['!'] (base ++ ['!']) = some base := stripEnd_eq_some.mpr rfl
      simp [splitImportant?, start, marks]
    · have marks : stripStart? ['!'] ('!' :: base) = some base := stripStart_eq_some.mpr rfl
      have second := ends ['!']
      simp only [List.singleton_append] at second
      simp [splitImportant?, marks, second]

theorem balanced_of_marked {base t : Text} {important : Bool} (marked : Marked base important t)
    (holds : balanced t = true) : balanced base = true := by
  unfold Marked at marked
  split at marked
  · rcases marked with rfl | rfl
    · exact balanced_of_concat (by decide) holds
    · rwa [← List.singleton_append, (closed_neutral (by decide)).balanced_append] at holds
  · rwa [← marked]

theorem marked_of_splitImportant {t base : Text} {important : Bool}
    (found : splitImportant? t = some (base, important)) : Marked base important t := by
  unfold splitImportant? at found
  split at found
  · cases found
  · rename_i lead _
    cases found
    exact .inr (stripStart_eq_some.mp lead)
  · rename_i _ tail
    cases found
    exact .inl (stripEnd_eq_some.mp tail)
  · cases found
    rfl

theorem dropLead_eq_some {lead : Option Text} {segments front : List Text} :
    dropLead? lead segments = some front ↔ segments = leadTexts lead ++ front := by
  unfold dropLead? leadTexts
  split
  · simp
  · simp
  · rename_i p other
    cases p with
    | nil => exact absurd rfl other
    | cons c p =>
      cases segments with
      | nil => simp
      | cons s rest => by_cases same : s = c :: p <;> simp [same]

/-- What the reader asks of the pieces of a text. -/
theorem parse_iff {lead : Option Text} {t : Text} {c : Candidate} :
    parse? lead t = some c ↔ t ≠ [] ∧ balanced t = true ∧ ∃ front last base,
      segment ':' t = leadTexts lead ++ front ++ [last] ∧
      splitImportant? last = some (base, c.important) ∧
      front.mapM Variant.parse? = some c.variants ∧ UtilityTerm.parse? base = some c.base := by
  unfold parse?
  constructor
  · intro read
    split at read
    · cases read
    · rename_i legal
      obtain ⟨some_left, holds⟩ : t ≠ [] ∧ balanced t = true := by simpa using legal
      obtain ⟨last, final, read⟩ := Option.bind_eq_some_iff.mp read
      obtain ⟨front, dropped, read⟩ := Option.bind_eq_some_iff.mp read
      obtain ⟨⟨base, important⟩, mark, read⟩ := Option.bind_eq_some_iff.mp read
      obtain ⟨variants, each, read⟩ := Option.bind_eq_some_iff.mp read
      obtain ⟨u, based, same⟩ := Option.bind_eq_some_iff.mp read
      cases same
      obtain ⟨before, whole⟩ := List.getLast?_eq_some_iff.mp final
      rw [whole, List.dropLast_concat] at dropped
      obtain rfl := dropLead_eq_some.mp dropped
      exact ⟨some_left, holds, front, last, base, whole, mark, each, based⟩
  · rintro ⟨some_left, holds, front, last, base, whole, mark, each, based⟩
    have dropped : dropLead? lead (leadTexts lead ++ front) = some front := dropLead_eq_some.mpr rfl
    rw [if_neg (by simp [some_left, holds])]
    simp only [whole, List.getLast?_concat, List.dropLast_concat, dropped, mark, each, based,
      Option.bind_eq_bind, Option.bind_some]

/-- Prefix, variants and utility, with colons between them. -/
structure Spelt (lead : Option Text) (t : Text) (c : Candidate) : Prop where
  spelt : ∃ texts base last, t = joinWith [':'] (leadTexts lead ++ texts ++ [last]) ∧
    List.Forall₂ Variant.Spelt texts c.variants ∧ UtilityTerm.Spelt base c.base ∧
    Marked base c.important last
  lead : ∀ p ∈ leadTexts lead, Solid ':' p

theorem mapM_eq_some {α β : Type} {f : α → Option β} {as : List α} {bs : List β} :
    as.mapM f = some bs ↔ List.Forall₂ (fun a b => f a = some b) as bs := by
  induction as generalizing bs with
  | nil => cases bs <;> simp
  | cons a as ih =>
    cases bs with
    | nil => simp [List.mapM_cons, Option.bind_eq_some_iff]
    | cons b bs => simp [List.mapM_cons, Option.bind_eq_some_iff, ih]

namespace Spelt

variable {lead : Option Text} {t : Text} {c : Candidate}

theorem read (read : parse? lead t = some c) : Spelt lead t c := by
  obtain ⟨-, holds, front, last, base, whole, mark, each, based⟩ := parse_iff.mp read
  have pieces {piece : Text} (member : piece ∈ segment ':' t) := balanced_of_mem_segment holds member
  have marked := marked_of_splitImportant mark
  have plain := balanced_of_marked marked (pieces (by simp [whole]))
  refine ⟨⟨front, base, last, by rw [← whole, joinWith_segment], ?_, .read plain based, marked⟩,
    fun p member => solid_of_mem_segment holds (by simp [whole, member])⟩
  have found := mapM_eq_some.mp each
  rw [List.forall₂_iff_zip] at found ⊢
  refine ⟨found.1, fun {a b} member => ?_⟩
  have inside : a ∈ front := (List.of_mem_zip member).1
  exact .read (pieces (by simp [whole, inside])) (found.2 member)

theorem variant (spelt : Spelt lead t c) : ∀ v ∈ c.variants, ∃ s, Variant.Spelt s v := by
  obtain ⟨⟨texts, base, last, -, each, -⟩, -⟩ := spelt
  intro v member
  obtain ⟨i, bound, rfl⟩ := List.getElem_of_mem member
  exact ⟨_, each.get (by rwa [each.length_eq]) bound⟩

theorem marked_solid {base t : Text} {important : Bool} (marked : Marked base important t)
    (solid : Solid ':' base) : Solid ':' t := by
  have mark : Solid ':' ['!'] := .neutral (by decide) (by decide)
  unfold Marked at marked
  split at marked
  · rcases marked with rfl | rfl
    · exact solid.append mark
    · exact mark.append solid
  · rwa [marked]

theorem variants_solid {texts : List Text} {variants : List Variant}
    (each : List.Forall₂ Variant.Spelt texts variants) : ∀ p ∈ texts, Solid ':' p := by
  induction each with
  | nil => simp
  | cons head _ ih =>
    intro p member
    rcases List.mem_cons.mp member with rfl | member
    · exact head.solid
    · exact ih p member

/-- The reader finds what the grammar spells. -/
theorem complete (spelt : Spelt lead t c) : parse? lead t = some c := by
  obtain ⟨⟨texts, base, last, rfl, each, based, marked⟩, solid⟩ := spelt
  have solids : ∀ p ∈ leadTexts lead ++ texts ++ [last], Solid ':' p := by
    intro p member
    rcases List.mem_append.mp member with member | member
    · rcases List.mem_append.mp member with member | member
      · exact solid p member
      · exact variants_solid each p member
    · rw [List.mem_singleton.mp member]
      exact marked_solid marked based.solid
  have cut : segment ':' (joinWith [':'] (leadTexts lead ++ texts ++ [last])) =
      leadTexts lead ++ texts ++ [last] := by
    obtain ⟨first, others, same⟩ := List.exists_cons_of_ne_nil
      (show leadTexts lead ++ texts ++ [last] ≠ [] by simp)
    rw [same] at solids ⊢
    exact segment_joinWith (by decide) solids
  have colon : Neutral ':' := by decide
  have holds := (closed_joinWith colon fun p member => (solids p member).closed).balanced
  have some_left : joinWith [':'] (leadTexts lead ++ texts ++ [last]) ≠ [] := by
    intro empty
    rw [empty] at cut
    have only : leadTexts lead ++ texts ++ [last] = [[]] := by simpa [Text.segment, segmentFrom] using cut.symm
    have nothing : last = [] := by
      have final := congrArg List.getLast? only
      simpa using final
    unfold Marked at marked
    split at marked
    · simp [nothing] at marked
    · exact based.head_ne.1 (marked.symm.trans nothing)
  have variants := mapM_eq_some.mpr (each.imp fun _ _ spelt => spelt.complete)
  exact parse_iff.mpr ⟨some_left, holds, texts, last, base, cut, splitImportant_of_marked based marked,
    variants, based.complete⟩

end Spelt

/-- The reader accepts exactly the texts that the grammar spells. -/
theorem parse_eq_some {lead : Option Text} {t : Text} {c : Candidate} :
    parse? lead t = some c ↔ Spelt lead t c :=
  ⟨Spelt.read, Spelt.complete⟩

end Candidate
end AtomicCss
