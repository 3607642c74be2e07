import AtomicCss.Proofs.Value.Walk
import AtomicCss.Value.Spacing

/-! Canonical spacing by plain recursion. Whether a node goes away depends on its
siblings alone, so the tree is gone through once, with the siblings in front at
hand. The two walks do the same: the first one marks the paths of exactly the
nodes that go away, and the second one leaves out what is marked. -/
namespace AtomicCss.Value

/-- The first sibling is exactly one space. -/
def headSpace : List Node → Bool
  | n :: _ => n.isSpace
  | [] => false

/-- An operator and then exactly one space. -/
def spacedOperator : List Node → Bool
  | op :: space :: _ => op.isOperator && space.isSpace
  | _ => false

theorem spacedOperator_cons (n : Node) (ns : List Node) :
    spacedOperator (n :: ns) = (n.isOperator && headSpace ns) := by
  cases ns <;> simp [spacedOperator, headSpace]

/-- Whether a node goes away that stands between `before`, the nearest one
first, and `after`. -/
def isDropped (before : List Node) (n : Node) (after : List Node) : Bool :=
  (n.isBlankSeparator && (before.isEmpty || after.isEmpty)) ||
    (n.isSpace && (spacedOperator before || spacedOperator after))

mutual

def compactNode : Node → Node
  | .word t => .word t
  | .separator t => .separator t
  | .call name args => .call name (compact [] args)

/-- The siblings that remain, when `before` came ahead of them. -/
def compact (before : List Node) : List Node → List Node
  | [] => []
  | n :: after =>
    if isDropped before n after then compact (n :: before) after
    else compactNode n :: compact (n :: before) after

end

/-- The place is the one of `n` between these siblings, the nearest one in front first. -/
def Position.Between (p : Position) (before : List Node) (n : Node) (after : List Node) : Prop :=
  p.siblings = before.reverse ++ n :: after ∧ p.index = before.length

namespace Position.Between

variable {p q : Position} {before after before' after' : List Node} {n m : Node}

theorem found (between : p.Between before n after) : p.siblings[p.index]? = some n := by
  simp [between.1, between.2]

theorem previous_space (between : p.Between before n after) :
    p.previous.any Node.isSpace = headSpace before := by
  rw [Position.previous, between.1, between.2]
  cases before <;> simp [headSpace]

theorem following_space (between : p.Between before n after) :
    p.following.any Node.isSpace = headSpace after := by
  rw [Position.following, between.1, between.2]
  cases after <;> simp [headSpace]

theorem isFirst_eq (between : p.Between before n after) : p.isFirst = before.isEmpty := by
  rw [Position.isFirst, between.2]
  cases before <;> simp

theorem isLast_eq (between : p.Between before n after) : p.isLast = after.isEmpty := by
  rw [Position.isLast, between.1, between.2]
  cases after <;> simp

theorem unique (between : p.Between before n after) (between' : p.Between before' m after') :
    before = before' ∧ n = m ∧ after = after' := by
  have siblings := between.1.symm.trans between'.1
  have index := between.2.symm.trans between'.2
  obtain ⟨front, rest⟩ := List.append_inj siblings (by simpa using index)
  cases rest
  exact ⟨List.reverse_injective front, rfl, rfl⟩

/-- One place to the left. -/
theorem left (between : q.Between (m :: before) n after) (siblings : p.siblings = q.siblings)
    (index : p.index = q.index - 1) : p.Between before m (n :: after) := by
  refine ⟨by simp [siblings, between.1], ?_⟩
  simp [index, between.2]

/-- One place to the right. -/
theorem right (between : q.Between before n (m :: after)) (siblings : p.siblings = q.siblings)
    (index : p.index = q.index + 1) : p.Between (n :: before) m after := by
  refine ⟨by simp [siblings, between.1], ?_⟩
  simp [index, between.2]

end Position.Between

section

variable {tree : List Node} {n m : Node} {p q : Position} {before after : List Node}

theorem Located.between (here : Located tree n p) : ∃ before after, p.Between before n after := by
  obtain ⟨inside, found⟩ := List.getElem?_eq_some_iff.mp here.found
  refine ⟨(p.siblings.take p.index).reverse, p.siblings.drop (p.index + 1), ?_, ?_⟩
  · rw [List.reverse_reverse, ← found, ← List.drop_eq_getElem_cons, List.take_append_drop]
  · simp [Nat.le_of_lt inside]

theorem mem_markedAt_iff (between : p.Between before n after) (path : List Nat) :
    path ∈ markedAt n p ↔
      (n.isOperator = true ∧ headSpace before = true ∧ headSpace after = true ∧
        (path = p.sibling (p.index - 1) ∨ path = p.sibling (p.index + 1))) ∨
      (n.isBlankSeparator = true ∧ (before = [] ∨ after = []) ∧ path = p.path) := by
  rw [markedAt, between.previous_space, between.following_space, between.isFirst_eq, between.isLast_eq]
  cases n with
  | word t => simp [Node.isBlankSeparator, and_assoc]
  | separator t => simp [Node.isOperator, and_assoc]
  | call name args => simp [Node.isOperator, Node.isBlankSeparator]

theorem isDropped_of_space (single : n.isSpace = true)
    (spaced : spacedOperator before = true ∨ spacedOperator after = true) :
    isDropped before n after = true := by
  rw [isDropped, single, Bool.true_and, Bool.or_eq_true, Bool.or_eq_true]
  exact .inr spaced

/-- What is marked goes away: it is a space beside an operator, or it marked itself. -/
theorem isDropped_of_marked (here : Located tree n p) (between : p.Between before n after)
    (there : Located tree m q) (marked : p.path ∈ markedAt m q) : isDropped before n after = true := by
  obtain ⟨ahead, behind, around⟩ := there.between
  rcases (mem_markedAt_iff around p.path).mp marked with
    ⟨operator, front, back, path | path⟩ | ⟨blank, edge, path⟩
  · obtain ⟨siblings, index⟩ := here.beside there path
    cases ahead with
    | nil => cases front
    | cons s ahead =>
      obtain ⟨rfl, rfl, rfl⟩ := between.unique (around.left siblings index)
      exact isDropped_of_space front (.inr (by rw [spacedOperator_cons, operator, back, Bool.and_self]))
  · obtain ⟨siblings, index⟩ := here.beside there path
    cases behind with
    | nil => cases back
    | cons s behind =>
      obtain ⟨rfl, rfl, rfl⟩ := between.unique (around.right siblings index)
      exact isDropped_of_space back (.inl (by rw [spacedOperator_cons, operator, front, Bool.and_self]))
  · obtain ⟨siblings, index⟩ := here.beside there (path.trans there.sibling_self.symm)
    obtain ⟨rfl, rfl, rfl⟩ := between.unique ⟨siblings.trans around.1, index.trans around.2⟩
    simp [isDropped, blank, edge]

/-- What goes away is marked, by itself or by an operator beside it. -/
theorem marked_of_isDropped (here : Located tree n p) (between : p.Between before n after)
    (dropped : isDropped before n after = true) : ∃ m q, Located tree m q ∧ p.path ∈ markedAt m q := by
  simp only [isDropped, Bool.or_eq_true, Bool.and_eq_true] at dropped
  have own := here.sibling_self
  rcases dropped with ⟨blank, edge⟩ | ⟨single, spaced | spaced⟩
  · refine ⟨n, p, here, (mem_markedAt_iff between p.path).mpr (.inr ⟨blank, ?_, rfl⟩)⟩
    simpa using edge
  · cases before with
    | nil => cases spaced
    | cons m ahead =>
      rw [spacedOperator_cons, Bool.and_eq_true] at spaced
      have place : (p.at (p.index - 1)).Between ahead m (n :: after) := between.left rfl rfl
      have path : p.path = (p.at (p.index - 1)).sibling (p.index - 1 + 1) := by
        rw [Position.sibling_at, ← own, between.2]
        rfl
      exact ⟨m, _, here.sibling place.found,
        (mem_markedAt_iff place p.path).mpr (.inl ⟨spaced.1, spaced.2, single, .inr path⟩)⟩
  · cases after with
    | nil => cases spaced
    | cons m behind =>
      rw [spacedOperator_cons, Bool.and_eq_true] at spaced
      have place : (p.at (p.index + 1)).Between (n :: before) m behind := between.right rfl rfl
      have path : p.path = (p.at (p.index + 1)).sibling (p.index + 1 - 1) := by
        rw [Position.sibling_at, ← own]
        rfl
      exact ⟨m, _, here.sibling place.found,
        (mem_markedAt_iff place p.path).mpr (.inl ⟨spaced.1, single, spaced.2, .inl path⟩)⟩

end

/-- What is marked at the end was marked before or is marked by one of the calls. -/
theorem mem_marked_iff {marked last : List (List Nat)} {calls : List Call}
    (answered : Answered markSpaces marked calls last) (path : List Nat) :
    path ∈ last ↔ path ∈ marked ∨ ∃ c ∈ calls, path ∈ markedAt c.node c.position := by
  induction answered with
  | done => simp
  | @call c calls marked next last answer later ih =>
    have noted : next = markedAt c.node c.position ++ marked := (congrArg Prod.snd answer).symm
    rw [ih, noted, List.mem_append, or_comm (a := path ∈ markedAt c.node c.position), or_assoc]
    simp

/-- Exactly the nodes that go away are marked. -/
def MarksDropped (tree : List Node) (marked : List (List Nat)) : Prop :=
  ∀ ⦃n p before after⦄, Located tree n p → p.Between before n after →
    (p.path ∈ marked ↔ isDropped before n after = true)

/-- The first walk only marks. -/
theorem walk_markSpaces (tree : List Node) :
    (walk markSpaces [] tree).1 = tree ∧ MarksDropped tree (walk markSpaces [] tree).2 := by
  obtain ⟨kept, descends⟩ := rewrite_descending markSpaces (fun _ _ _ => rfl) (Row.top tree) 0 [] tree
  have answered := rewrite_answered markSpaces (Row.top tree) 0 [] tree
  rw [walk_eq]
  refine ⟨kept, fun n p before after here between => ?_⟩
  rw [mem_marked_iff answered]
  refine ⟨?_, fun dropped => ?_⟩
  · rintro (nothing | ⟨c, member, marked⟩)
    · cases nothing
    · have there := ((called_iff markSpaces tree [] c.node c.position).mp ⟨c.action, member⟩).1
      exact isDropped_of_marked here between there marked
  · obtain ⟨m, q, there, marked⟩ := marked_of_isDropped here between dropped
    obtain ⟨a, member⟩ := (called_iff markSpaces tree [] m q).mpr
      ⟨there, fun c member _ _ => descends c member⟩
    exact .inr ⟨⟨m, q, a⟩, member, marked⟩

/-- The second walk leaves out what is marked. -/
theorem rewrite_dropMarked {tree : List Node} {marked : List (List Nat)} (right : MarksDropped tree marked)
    (row : Row) (index : Nat) (ns before : List Node) (standing : Standing tree row index ns)
    (siblings : row.siblings = before.reverse ++ ns) (ahead : index = before.length) :
    (rewrite (dropMarked marked) row index () ns).nodes = compact before ns := by
  -- By the tree: `before` grows along a row, and starts anew among the arguments of a call.
  induction ns using nodes_induction generalizing row index before with
  | nil => rw [rewrite, compact]
  | cons n ns inside later =>
    have here := right (standing 0 n rfl) ⟨siblings, ahead⟩
    have rest := later row (index + 1) (n :: before) standing.tail (by simp [siblings]) (by simp [ahead])
    rw [rewrite, compact, ← rest]
    by_cases member : (row.place index).path ∈ marked
    · have answer : dropMarked marked n (row.place index) () = (.replace [], ()) := by
        simp [dropMarked, member]
      rw [if_pos (here.mp member), rewriteNode_replaced answer]
      rfl
    · have answer : dropMarked marked n (row.place index) () = (.descend, ()) := by
        simp [dropMarked, member]
      rw [if_neg fun dropped => member (here.mpr dropped)]
      cases n with
      | word t =>
        rw [rewriteNode_kept (.inr ⟨rfl, by simp⟩) answer, compactNode]
        rfl
      | separator t =>
        rw [rewriteNode_kept (.inr ⟨rfl, by simp⟩) answer, compactNode]
        rfl
      | call name args =>
        have arguments := inside name args rfl _ 0 [] standing.below rfl rfl
        rw [rewriteNode_descended answer, compactNode, ← arguments]
        rfl

/-- The two walks compact the tree. -/
theorem compactTree_eq (tree : List Node) : compactTree tree = compact [] tree := by
  have marks := walk_markSpaces tree
  rw [compactTree]
  cases first : walk markSpaces [] tree with
  | mk kept marked =>
    rw [first] at marks
    obtain ⟨rfl, right⟩ := marks
    have second := rewrite_dropMarked right (Row.top kept) 0 kept [] (standing_top kept) rfl rfl
    dsimp only
    split
    · -- Without a mark the second walk, which is left out, would keep every node.
      rename_i nothing
      obtain rfl := List.isEmpty_iff.mp nothing
      have left := (rewrite_descending (dropMarked []) (fun _ _ _ => rfl) (Row.top kept) 0 () kept).1
      exact left.symm.trans second
    · rw [walk_eq]
      exact second

theorem compactText_eq_compact (t : Text) : compactText t = render (compact [] (parse t)) := by
  rw [compactText, compactTree_eq]

end AtomicCss.Value
