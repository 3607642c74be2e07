import AtomicCss.Proofs.DataType.Words
import AtomicCss.Proofs.Text.Cut

/-! Names of families. Blanks in them do not matter as long as they are single spaces, and canonical
spacing takes nothing else away but next to a parenthesis or at an end of the text, where a family has no blanks. -/
namespace AtomicCss.DataType
open Text Value

/-- The last text is the middle one behind `front`, without some runs of blanks. Each of these is a single
space or comes at an end of the text or of the arguments of a call. -/
inductive Shrinks : Text → Text → Text → Prop
  | nil (front : Text) : Shrinks front [] []
  | keep {front t u : Text} {c : Char} (rest : Shrinks (front ++ [c]) t u) : Shrinks front (c :: t) (c :: u)
  | drop {front run t u : Text} (blank : ∀ c ∈ run, isBlank c = true)
    (edge : run = [' '] ∨ (∀ c, front.getLast? = some c → c = '(') ∨ ∀ c, t.head? = some c → c = ')')
    (rest : Shrinks (front ++ run) t u) : Shrinks front (run ++ t) u

namespace Shrinks

theorem same {front behind u : Text} (t : Text) (rest : Shrinks (front ++ t) behind u) :
    Shrinks front (t ++ behind) (t ++ u) := by
  induction t generalizing front with
  | nil => rwa [List.append_nil] at rest
  | cons c t ih => exact .keep (ih (by simpa using rest))

theorem subset {front t u : Text} (shrinks : Shrinks front t u) : u ⊆ t := by
  induction shrinks with
  | nil => exact List.Subset.refl []
  | keep _ ih => exact List.cons_subset_cons _ ih
  | drop _ _ _ ih => exact List.Subset.trans ih (List.subset_append_right _ _)

end Shrinks

/-- Blanks around a text. -/
theorem shrinks_trim (t : Text) : Shrinks [] t (trim t) := by
  obtain ⟨before, behind, parts, blank, blank'⟩ := trim_parts t
  have last : Shrinks (before ++ trim t) behind [] := by
    have ends : Shrinks (before ++ trim t) (behind ++ []) [] := .drop blank' (.inr (.inr nofun)) (.nil _)
    rwa [List.append_nil] at ends
  have middle := Shrinks.same (trim t) last
  rw [List.append_nil] at middle
  conv => arg 2; rw [parts]
  exact .drop blank (.inr (.inl nofun)) middle

mutual

theorem shrinks_node {front behind u : Text} : (n : Node) → Shrinks (front ++ renderNode n) behind u →
    Shrinks front (renderNode n ++ behind) (renderNode (compactNode n) ++ u)
  | .word t, rest => by simpa [compactNode] using Shrinks.same t (by simpa using rest)
  | .separator t, rest => by simpa [compactNode] using Shrinks.same t (by simpa using rest)
  | .call name args, rest => by
    have closing : Shrinks (front ++ (name ++ ['(']) ++ render args) (')' :: behind) (')' :: u) :=
      .keep (by simpa using rest)
    have inside := shrinks_list [] args (fun _ c last => by simpa using last.symm)
      (fun c head => by simpa using head.symm) closing
    simpa [compactNode] using Shrinks.same (name ++ ['(']) inside

/-- What canonical spacing does to siblings. -/
theorem shrinks_list {front behind u : Text} (before : List Node) : (ns : List Node) →
    (before = [] → ∀ c, front.getLast? = some c → c = '(') → (∀ c, behind.head? = some c → c = ')') →
    Shrinks (front ++ render ns) behind u →
    Shrinks front (render ns ++ behind) (render (compact before ns) ++ u)
  | [], _, _, rest => by simpa [compact] using rest
  | n :: after, start, finish, rest => by
    have later : Shrinks (front ++ renderNode n) (render after ++ behind) (render (compact (n :: before) after) ++ u) :=
      shrinks_list (n :: before) after nofun finish (by simpa using rest)
    rw [compact]
    split
    · rename_i dropped
      obtain ⟨t, rfl, blank⟩ := blank_of_dropped dropped
      rw [render_cons, List.append_assoc]
      refine .drop (List.all_eq_true.mp (by simpa using blank)) ?_ later
      rcases isDropped_iff.mp dropped with ⟨-, rfl | rfl⟩ | ⟨rfl, -⟩
      · exact .inr (.inl (start rfl))
      · exact .inr (.inr (by simpa using finish))
      · exact .inl (by simp)
    · rw [render_cons, render_cons, List.append_assoc, List.append_assoc]
      exact shrinks_node n later

end

theorem shrinks_compact (ns : List Node) : Shrinks [] (render ns) (render (compact [] ns)) := by
  have whole : Shrinks [] (render ns ++ []) (render (compact [] ns) ++ []) :=
    shrinks_list [] ns nofun nofun (.nil _)
  simpa using whole

theorem shrinks_compactText (v : Text) : Shrinks [] v (compactText v) := by
  have whole := shrinks_compact (parse v)
  rwa [render_parse, ← compactText_eq_compact] at whole

/-- The characters at both ends of a family are those of its ink. -/
theorem isFamily_trim (t : Text) : isFamily (trim t) = match ink t with
    | [] => false
    | c :: _ => !c.isDigit && ((c == '"' && (ink t).getLast? == some '"') ||
      (c == '\'' && (ink t).getLast? == some '\'') || (trim t).all isFamilyChar) := by
  rw [← ink_trim]
  cases same : trim t with
  | nil => rfl
  | cons c rest =>
    have last : (ink (c :: rest)).getLast? = (c :: rest).getLast? := by
      obtain ⟨front, d, whole⟩ := (List.eq_nil_or_concat (c :: rest)).resolve_left (List.cons_ne_nil _ _)
      rw [List.concat_eq_append] at whole
      have visible := trim_last (same.trans whole)
      rw [whole, ink_append, ink_visible visible]
      simp [ink]
    rw [last, ink_visible (trim_head same)]
    rfl

theorem not_family_paren : isFamilyChar '(' = false ∧ isFamilyChar ')' = false := by decide +kernel

/-- A run of blanks does not make a family, nor unmake it, if it is one space or stands at an end or
next to a parenthesis. -/
theorem isFamily_run {a run b : Text} (blank : ∀ c ∈ run, isBlank c = true)
    (edge : run = [' '] ∨ (∀ c, a.getLast? = some c → c = '(') ∨ ∀ c, b.head? = some c → c = ')') :
    isFamily (trim (a ++ (run ++ b))) = isFamily (trim (a ++ b)) := by
  have same : ink (a ++ (run ++ b)) = ink (a ++ b) := by simp [ink_blank blank]
  suffices (trim (a ++ (run ++ b))).all isFamilyChar = (trim (a ++ b)).all isFamilyChar by
    rw [isFamily_trim, isFamily_trim, same, this]
  by_cases left : trim a = []
  · have front : ∀ c ∈ a ++ run, isBlank c = true := List.forall_mem_append.mpr ⟨blank_of_trim left, blank⟩
    rw [← List.append_assoc, trim_before front, trim_before (blank_of_trim left)]
  by_cases right : trim b = []
  · have behind : ∀ c ∈ run ++ b, isBlank c = true := List.forall_mem_append.mpr ⟨blank, blank_of_trim right⟩
    rw [trim_behind behind, trim_behind (blank_of_trim right)]
  obtain ⟨r, r', middle⟩ := trim_middle left right
  have shorter := middle []
  rw [List.nil_append, List.append_nil] at shorter
  rw [middle, shorter]
  simp only [List.all_append]
  rcases edge with rfl | front | behind
  · have space : isFamilyChar ' ' = true := by simp [isFamilyChar]
    simp [space]
  · have some_left : a ≠ [] := by
      rintro rfl
      exact left rfl
    have last := List.getLast?_eq_some_getLast some_left
    have inside : '(' ∈ a := front _ last ▸ List.getLast_mem some_left
    have none : (trim a).all isFamilyChar = false :=
      List.all_eq_false.mpr ⟨_, (mem_trim rfl a).mpr inside, by simp [not_family_paren]⟩
    simp [none]
  · obtain ⟨c, b', rfl⟩ := List.exists_cons_of_ne_nil (l := b) (by rintro rfl; exact right rfl)
    obtain rfl := behind c rfl
    have none : (trim (')' :: b')).all isFamilyChar = false :=
      List.all_eq_false.mpr ⟨_, (mem_trim rfl _).mpr (.head b'), by simp [not_family_paren]⟩
    simp [none]

theorem isFamilyName_absent {t : Text} (absent : ',' ∉ t) : isFamilyName t = isFamily (trim t) := by
  rw [isFamilyName, fields_absent absent]
  simp

theorem isFamilyName_first {a : Text} (absent : ',' ∉ a) (b : Text) :
    isFamilyName (a ++ ',' :: b) = (isFamily (trim a) && isFamilyName b) := by
  rw [isFamilyName, fields_first absent]
  rfl

/-- The texts make the same families with whatever may stand behind them. The pieces of the name are read
from here to `t`, and where `t` is at an end or at the end of a call, so is the piece. -/
def SameFamily (a b t : Text) : Prop :=
  ∀ w, ((∀ c, t.head? = some c → c = ')') → ∀ c, w.head? = some c → c = ')') →
    isFamily (trim (a ++ w)) = isFamily (trim (b ++ w))

/-- The families stay those that they were. -/
theorem Shrinks.isFamilyName_eq {front t u : Text} (shrinks : Shrinks front t u) {a b : Text}
    (suffix : a <:+ front) (absent : ',' ∉ a) (absent' : ',' ∉ b) (same : SameFamily a b t) :
    isFamilyName (a ++ t) = isFamilyName (b ++ u) := by
  induction shrinks generalizing a b with
  | nil =>
    have whole := same [] fun _ => nofun
    simp only [List.append_nil] at whole ⊢
    rw [isFamilyName_absent absent, isFamilyName_absent absent', whole]
  | @keep front t u c _ ih =>
    by_cases comma : c = ','
    · subst comma
      have whole := same [] fun _ => nofun
      rw [List.append_nil, List.append_nil] at whole
      have later := ih (a := []) (b := []) List.nil_suffix nofun nofun fun _ _ => rfl
      rw [List.nil_append, List.nil_append] at later
      rw [isFamilyName_first absent, isFamilyName_first absent', whole, later]
    · have next : SameFamily (a ++ [c]) (b ++ [c]) t := by
        intro w _
        have whole := same (c :: w) fun ends d head => ends d head
        simpa using whole
      have later := ih (a := a ++ [c]) (b := b ++ [c]) ?_ (by simpa [absent] using Ne.symm comma)
        (by simpa [absent'] using Ne.symm comma) next
      · simpa using later
      · obtain ⟨rest, rfl⟩ := suffix
        exact ⟨rest, by simp⟩
  | @drop front run t u blank edge _ ih =>
    have comma : ',' ∉ run := fun member => by cases blank _ member
    have next : SameFamily (a ++ run) b t := by
      intro w fits
      cases run with
      | nil => simpa using same w fits
      | cons c run =>
        have longer : isFamily (trim (a ++ (c :: run ++ w))) = isFamily (trim (a ++ w)) := by
          refine isFamily_run blank (edge.imp_right (.imp (fun first d last => first d ?_) fits))
          obtain ⟨rest, rfl⟩ := suffix
          rw [List.getLast?_append, last, Option.some_or]
        rw [List.append_assoc, longer]
        refine same w fun ends => ?_
        -- The run stands in front, so nothing is said about what comes behind it.
        obtain rfl := ends c rfl
        cases blank ')' (.head run)
    have later := ih (a := a ++ run) ?_ (by simp [absent, comma]) absent' next
    · simpa using later
    · obtain ⟨rest, rfl⟩ := suffix
      exact ⟨rest, by simp⟩

theorem Shrinks.families {t u : Text} (shrinks : Shrinks [] t u) : isFamilyName u = isFamilyName t :=
  (shrinks.isFamilyName_eq (List.nil_suffix (l := [])) (List.not_mem_nil) (List.not_mem_nil) fun _ _ => rfl).symm

/-- Canonical spacing neither makes nor unmakes names of families. -/
theorem isFamilyName_compactText (v : Text) : isFamilyName (trim (compactText v)) = isFamilyName (trim v) := by
  rw [(shrinks_trim _).families, (shrinks_compactText v).families, (shrinks_trim v).families]

end AtomicCss.DataType
