import AtomicCss.Proofs.Value.Rewriting
import AtomicCss.Value.Lexeme
import Mathlib.Data.List.Nodup

/-! Walking a value tree is rewriting it by plain recursion. The edits are
noted in the order of their paths, so they are put in place from the last
one to the first, and each finds its node where it was noted. -/
namespace AtomicCss.Value

theorem dictionaryLe_iff (a b : List Nat) : dictionaryLe a b = true ↔ ¬ b < a := by
  induction a generalizing b with
  | nil => simp [dictionaryLe]
  | cons m a ih =>
    cases b with
    | nil => simp [dictionaryLe]
    | cons n b =>
      simp only [dictionaryLe, Bool.or_eq_true, Bool.and_eq_true, decide_eq_true_eq, beq_iff_eq, ih,
        List.cons_lt_cons_iff]
      by_cases order : b < a
      · simp [order]
        omega
      · simp [order]
        omega

theorem laterFirst_iff (a b : Edit) : laterFirst a b = true ↔ ¬ a.path < b.path :=
  dictionaryLe_iff b.path a.path

/-- Edits with ascending paths are put in place from the last to the first. -/
theorem mergeSort_laterFirst {edits : List Edit} (ascending : edits.Pairwise fun d e => d.path < e.path) :
    edits.mergeSort laterFirst = edits.reverse := by
  have sorted : (edits.mergeSort laterFirst).Pairwise fun d e => laterFirst d e = true := by
    apply List.pairwise_mergeSort
    · intro d e f first second
      rw [laterFirst_iff, List.not_lt] at first second ⊢
      exact List.le_trans second first
    · intro d e
      rw [Bool.or_eq_true, laterFirst_iff, laterFirst_iff, List.not_lt, List.not_lt]
      exact List.le_total e.path d.path
  have backward : edits.reverse.Pairwise fun d e => laterFirst d e = true := by
    apply List.pairwise_reverse.mpr
    apply ascending.imp
    intro d e order
    exact (laterFirst_iff e d).mpr (List.lt_asymm order)
  have listed : (edits.mergeSort laterFirst).Perm edits.reverse :=
    (List.mergeSort_perm edits _).trans (List.reverse_perm edits).symm
  refine List.Perm.eq_of_pairwise ?_ sorted backward listed
  -- No two edits have the same path, so that the order of the paths is one of the edits.
  intro d e member member' first second
  rw [laterFirst_iff, List.not_lt] at first second
  have distinct : (edits.map Edit.path).Nodup := by
    apply List.pairwise_map.mpr
    apply ascending.imp
    intro d e order same
    exact List.lt_irrefl e.path (same ▸ order)
  exact List.inj_on_of_nodup_map distinct (List.mem_mergeSort.mp member) (List.mem_reverse.mp member')
    (List.le_antisymm second first)

namespace Edit

/-- The edit in a tree around the one that it was noted for. -/
def under (above : List Nat) (e : Edit) : Edit := { e with path := above ++ e.path }

def put (e : Edit) (tree : List Node) : List Node := splice e.nodes e.path tree

end Edit

theorem splice_here (front ns nodes : List Node) (n : Node) :
    splice nodes [front.length] (front ++ n :: ns) = front ++ (nodes ++ ns) := by
  simp [splice, List.drop_append]

theorem splice_below (front ns nodes args : List Node) (name : Text) {path : List Nat} (deep : path ≠ []) :
    splice nodes (front.length :: path) (front ++ .call name args :: ns) =
      front ++ .call name (splice nodes path args) :: ns := by
  cases path with
  | nil => exact absurd rfl deep
  | cons j rest =>
    simp only [splice]
    induction front with
    | nil => rfl
    | cons m front ih => exact congrArg (m :: ·) ih

/-- Put in place from the last to the first, the edits turn the siblings from `index` on into
`nodes` and leave the ones in front alone. -/
def Carries (above : List Nat) (index : Nat) (ns : List Node) (edits : List Edit)
    (nodes : List Node) : Prop :=
  ∃ own : List Edit, edits = own.map (Edit.under above) ∧ (∀ e ∈ own, e.path ≠ []) ∧
    ∀ front : List Node, front.length = index → own.foldr Edit.put (front ++ ns) = front ++ nodes

section

variable {above : List Nat} {index : Nat} {ns later : List Node} {edits : List Edit}

theorem carries_nil (above : List Nat) (index : Nat) : Carries above index [] [] [] :=
  ⟨[], rfl, by simp, by simp⟩

theorem Carries.replaced (rest : Carries above (index + 1) ns edits later) (n : Node) (nodes : List Node) :
    Carries above index (n :: ns) (⟨above ++ [index], nodes⟩ :: edits) (nodes ++ later) := by
  obtain ⟨own, rfl, deep, carried⟩ := rest
  refine ⟨⟨[index], nodes⟩ :: own, rfl, by simpa using deep, ?_⟩
  rintro front rfl
  have behind := carried (front ++ [n]) (by simp)
  simp only [List.append_assoc, List.singleton_append] at behind
  rw [List.foldr_cons, behind]
  exact splice_here front later nodes n

theorem Carries.kept (rest : Carries above (index + 1) ns edits later) (n : Node) :
    Carries above index (n :: ns) edits (n :: later) := by
  obtain ⟨own, rfl, deep, carried⟩ := rest
  refine ⟨own, rfl, deep, ?_⟩
  rintro front rfl
  have behind := carried (front ++ [n]) (by simp)
  simpa only [List.append_assoc, List.singleton_append] using behind

theorem Carries.descended {name : Text} {args nodes : List Node} {inner : List Edit}
    (below : Carries (above ++ [index]) 0 args inner nodes)
    (rest : Carries above (index + 1) ns edits later) :
    Carries above index (.call name args :: ns) (inner ++ edits) (.call name nodes :: later) := by
  obtain ⟨own, rfl, deep, carried⟩ := below
  obtain ⟨others, rfl, deep', carried'⟩ := rest
  refine ⟨own.map (Edit.under [index]) ++ others, by simp [Edit.under, Function.comp_def], ?_, ?_⟩
  · intro e member
    rcases List.mem_append.mp member with inside | behind
    · obtain ⟨d, -, rfl⟩ := List.mem_map.mp inside
      simp [Edit.under]
    · exact deep' e behind
  · rintro front rfl
    have behind := carried' (front ++ [.call name args]) (by simp)
    simp only [List.append_assoc, List.singleton_append] at behind
    have inside : (own.map (Edit.under [front.length])).foldr Edit.put (front ++ .call name args :: later) =
        front ++ .call name (own.foldr Edit.put args) :: later := by
      clear carried
      induction own with
      | nil => rfl
      | cons e own ih =>
        rw [List.map_cons, List.foldr_cons, ih fun d member => deep d (List.mem_cons_of_mem e member)]
        exact splice_below front later e.nodes _ name (deep e (by simp))
    rw [List.foldr_append, behind, inside]
    have whole := carried [] rfl
    simp only [List.nil_append] at whole
    rw [whole]

end

/-- The edit that a call is answered with. -/
def Call.edit? (c : Call) : Option Edit :=
  match c.action with
  | .replace nodes => some ⟨c.position.path, nodes⟩
  | _ => none

theorem path_of_edit? {c : Call} {e : Edit} (answer : c.edit? = some e) : e.path = c.position.path := by
  unfold Call.edit? at answer
  split at answer
  · cases answer
    rfl
  · cases answer

section

variable {σ : Type} (visit : Visitor σ)

theorem stays_edit? {n : Node} {a : Action} (stays : Stays n a) (p : Position) :
    Call.edit? ⟨n, p, a⟩ = none := by
  rcases stays with rfl | ⟨rfl, -⟩
  · rfl
  · rfl

theorem rewrite_carries (row : Row) (index : Nat) (state : σ) (ns : List Node) :
    Carries row.above index ns ((rewrite visit row index state ns).calls.filterMap Call.edit?)
      (rewrite visit row index state ns).nodes := by
  refine rewrite_induction visit (motive := fun row index _ ns r =>
    Carries row.above index ns (r.calls.filterMap Call.edit?) r.nodes) ?_ ?_ ?_ ?_ row index state ns
  · intro row index state
    exact carries_nil row.above index
  · intro row index state n ns nodes next later answer ih
    exact ih.replaced n nodes
  · intro row index state n ns a next later stays answer ih
    rw [List.filterMap_cons_none (stays_edit? stays _)]
    exact ih.kept n
  · intro row index state name args ns next inner later answer below ih
    rw [List.filterMap_cons_none rfl, List.filterMap_append]
    exact Carries.descended below ih

theorem collect_cons {visit : Visitor σ} {row : Row} {index : Nat} {state next last : σ} {n : Node}
    {ns : List Node} {edits later : List Edit}
    (first : collectNode visit (row.place index) state n = (edits, next))
    (rest : collect visit row.parent row.siblings row.above (index + 1) next ns = (later, last)) :
    collect visit row.parent row.siblings row.above index state (n :: ns) = (edits ++ later, last) := by
  simp only [Row.place] at first
  simp only [collect, first, rest]

/-- The edits of a walk are those of the recursion, and the state goes the same way. -/
theorem collect_eq (row : Row) (index : Nat) (state : σ) (ns : List Node) :
    collect visit row.parent row.siblings row.above index state ns =
      ((rewrite visit row index state ns).calls.filterMap Call.edit?,
        (rewrite visit row index state ns).state) := by
  refine rewrite_induction visit (motive := fun row index state ns r =>
    collect visit row.parent row.siblings row.above index state ns =
      (r.calls.filterMap Call.edit?, r.state)) ?_ ?_ ?_ ?_ row index state ns
  · intro row index state
    simp [collect]
  · intro row index state n ns nodes next later answer ih
    have first : collectNode visit (row.place index) state n =
        ([⟨(row.place index).path, nodes⟩], next) := by
      cases n <;> rw [collectNode, answer]
    exact collect_cons first ih
  · intro row index state n ns a next later stays answer ih
    have first : collectNode visit (row.place index) state n = ([], next) := by
      rcases stays with rfl | ⟨rfl, leaf⟩
      · cases n <;> rw [collectNode, answer]
      · cases n with
        | call name args => exact absurd rfl (leaf name args)
        | word t => rw [collectNode, answer]
        | separator t => rw [collectNode, answer]
    rw [List.filterMap_cons_none (stays_edit? stays _)]
    exact collect_cons first ih
  · intro row index state name args ns next inner later answer below ih
    have first : collectNode visit (row.place index) state (.call name args) =
        (inner.calls.filterMap Call.edit?, inner.state) := by
      rw [collectNode, answer]
      exact below
    rw [List.filterMap_cons_none rfl, List.filterMap_append]
    exact collect_cons first ih

/-- A walk rewrites the tree as the recursion does. -/
theorem walk_eq (state : σ) (tree : List Node) :
    walk visit state tree =
      ((rewrite visit (Row.top tree) 0 state tree).nodes, (rewrite visit (Row.top tree) 0 state tree).state) := by
  have collected := collect_eq visit (Row.top tree) 0 state tree
  obtain ⟨own, edits, -, carried⟩ := rewrite_carries visit (Row.top tree) 0 state tree
  have noted : own.map (Edit.under []) = own := List.map_id own
  rw [show (Row.top tree).above = [] from rfl, noted] at edits
  have ascending : own.Pairwise fun d e => d.path < e.path := by
    rw [← edits]
    apply List.Pairwise.filterMap _ _ (rewrite_ordered visit (Row.top tree) 0 state tree).2
    intro c d order e answer e' answer'
    rw [path_of_edit? answer, path_of_edit? answer']
    exact order.1
  have applied : applyEdits own tree = (rewrite visit (Row.top tree) 0 state tree).nodes := by
    rw [applyEdits, mergeSort_laterFirst ascending, List.foldl_reverse]
    exact carried [] rfl
  rw [edits] at collected
  unfold walk
  rw [show collect visit none tree [] 0 state tree = _ from collected]
  exact congrArg (·, _) applied

/-- A walk gives the tree and the state of the plain recursion. Its calls, as a visitor that writes
them down sees them, are made in the order of the paths, hence once for each place; they are made at
the nodes of the unchanged tree, namely at all that are not below a node answered otherwise than by
going on; and the answers are the visitor's own. -/
theorem walk_is_recursion (state : σ) (tree : List Node) :
    let r := rewrite visit (Row.top tree) 0 state tree
    walk visit state tree = (r.nodes, r.state) ∧
      walk visit.logged (state, []) tree = (r.nodes, r.state, r.calls) ∧
      Answered visit state r.calls r.state ∧
      (r.calls.Pairwise fun c d => c.position.path < d.position.path) ∧
      ∀ n p, (∃ a, ⟨n, p, a⟩ ∈ r.calls) ↔ Located tree n p ∧
        ∀ c ∈ r.calls, c.position.path <+: p.path → c.position.path ≠ p.path → c.action = .descend := by
  intro r
  have ordered := rewrite_ordered visit (Row.top tree) 0 state tree
  refine ⟨walk_eq visit state tree, ?_, ?_, ordered.2.imp And.left, called_iff visit tree state⟩
  · rw [walk_eq, rewrite_logged]
    rfl
  · exact rewrite_answered visit (Row.top tree) 0 state tree

/-- Each separator goes and a word becomes three nodes; the later edits keep their places. -/
example :
    render (walk (fun n _ (count : Nat) =>
      match n with
      | .separator _ => (.replace [], count + 1)
      | .word ['d'] => (.replace [.word "x", .separator ",", .word "y"], count + 1)
      | _ => (.descend, count + 1)) 0 (parse "a b c(d e)")).1 = "abc(x,ye)".toList := by
  cbv

end

end AtomicCss.Value
