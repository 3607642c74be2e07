import AtomicCss.Proofs.Value.Tree
import AtomicCss.Value.Walk
import Mathlib.Data.List.Basic

/-! Rewriting a value tree by plain recursion: the visitor is called on a node,
and its answer says what becomes of the node and whether the recursion goes on
below it. The calls are listed as they are made, and the induction principle
follows them. -/
namespace AtomicCss.Value

/-- A list of siblings, the call that they are the arguments of and the path to that call. -/
structure Row where
  parent : Option Node
  siblings : List Node
  above : List Nat

namespace Row

def top (tree : List Node) : Row := { parent := none, siblings := tree, above := [] }

/-- The arguments of a call that stands at `p`. -/
def below (p : Position) (name : Text) (args : List Node) : Row :=
  { parent := some (.call name args), siblings := args, above := p.path }

def place (row : Row) (index : Nat) : Position :=
  { parent := row.parent, siblings := row.siblings, index, path := row.above ++ [index] }

end Row

/-- A node that a visitor was called on, where it stands, and the answer. -/
structure Call where
  node : Node
  position : Position
  action : Action

/-- What siblings become, the calls that were made for it and the visitor's state after them. -/
structure Rewriting (σ : Type) where
  nodes : List Node
  calls : List Call
  state : σ

mutual

/-- A replaced node becomes the nodes put in its place, a skipped one stays as it is, and a call
that is descended into keeps its name around its rewritten arguments. -/
def rewriteNode {σ : Type} (visit : Visitor σ) (p : Position) (state : σ) (n : Node) : Rewriting σ :=
  match visit n p state with
  | (.replace nodes, state) => ⟨nodes, [⟨n, p, .replace nodes⟩], state⟩
  | (.skip, state) => ⟨[n], [⟨n, p, .skip⟩], state⟩
  | (.descend, state) =>
    match n with
    | .call name args =>
      let inner := rewrite visit (Row.below p name args) 0 state args
      ⟨[.call name inner.nodes], ⟨.call name args, p, .descend⟩ :: inner.calls, inner.state⟩
    | n => ⟨[n], [⟨n, p, .descend⟩], state⟩

/-- The siblings from `index` on, one after the other. -/
def rewrite {σ : Type} (visit : Visitor σ) (row : Row) (index : Nat) (state : σ) :
    List Node → Rewriting σ
  | [] => ⟨[], [], state⟩
  | n :: ns =>
    let first := rewriteNode visit (row.place index) state n
    let later := rewrite visit row (index + 1) first.state ns
    ⟨first.nodes ++ later.nodes, first.calls ++ later.calls, later.state⟩

end

/-- The node stays and nothing below it is looked at. -/
def Stays (n : Node) (a : Action) : Prop :=
  a = .skip ∨ a = .descend ∧ ∀ name args, n ≠ .call name args

section

variable {σ : Type} {visit : Visitor σ}

theorem rewriteNode_replaced {n : Node} {p : Position} {state next : σ} {nodes : List Node}
    (answer : visit n p state = (.replace nodes, next)) :
    rewriteNode visit p state n = ⟨nodes, [⟨n, p, .replace nodes⟩], next⟩ := by
  unfold rewriteNode
  rw [answer]

theorem rewriteNode_kept {n : Node} {p : Position} {state next : σ} {a : Action} (stays : Stays n a)
    (answer : visit n p state = (a, next)) :
    rewriteNode visit p state n = ⟨[n], [⟨n, p, a⟩], next⟩ := by
  unfold rewriteNode
  rw [answer]
  rcases stays with rfl | ⟨rfl, leaf⟩
  · rfl
  · cases n with
    | call name args => exact absurd rfl (leaf name args)
    | _ => rfl

theorem rewriteNode_descended {name : Text} {args : List Node} {p : Position} {state next : σ}
    (answer : visit (.call name args) p state = (.descend, next)) :
    rewriteNode visit p state (.call name args) =
      let inner := rewrite visit (Row.below p name args) 0 next args
      ⟨[.call name inner.nodes], ⟨.call name args, p, .descend⟩ :: inner.calls, inner.state⟩ := by
  rw [rewriteNode, answer]

variable (visit)

/-- Rewriting siblings, by the answer for the first of them. -/
theorem rewrite_induction {motive : Row → Nat → σ → List Node → Rewriting σ → Prop}
    (nil : ∀ row index state, motive row index state [] ⟨[], [], state⟩)
    (replaced : ∀ row index state n ns nodes next later,
      visit n (row.place index) state = (.replace nodes, next) → motive row (index + 1) next ns later →
      motive row index state (n :: ns)
        ⟨nodes ++ later.nodes, ⟨n, row.place index, .replace nodes⟩ :: later.calls, later.state⟩)
    (kept : ∀ row index state n ns a next later, Stays n a →
      visit n (row.place index) state = (a, next) → motive row (index + 1) next ns later →
      motive row index state (n :: ns)
        ⟨n :: later.nodes, ⟨n, row.place index, a⟩ :: later.calls, later.state⟩)
    (descended : ∀ row index state name args ns next inner later,
      visit (.call name args) (row.place index) state = (.descend, next) →
      motive (Row.below (row.place index) name args) 0 next args inner →
      motive row (index + 1) inner.state ns later →
      motive row index state (.call name args :: ns)
        ⟨.call name inner.nodes :: later.nodes,
          ⟨.call name args, row.place index, .descend⟩ :: (inner.calls ++ later.calls), later.state⟩)
    (row : Row) (index : Nat) (state : σ) (ns : List Node) :
    motive row index state ns (rewrite visit row index state ns) := by
  induction ns using nodes_induction generalizing row index state with
  | nil =>
    rw [rewrite]
    exact nil row index state
  | cons n ns inside later =>
    rw [rewrite]
    cases answer : visit n (row.place index) state with
    | mk a next =>
      cases a with
      | replace nodes =>
        rw [rewriteNode_replaced answer]
        exact replaced row index state n ns nodes next _ answer (later row (index + 1) next)
      | skip =>
        rw [rewriteNode_kept (.inl rfl) answer]
        exact kept row index state n ns .skip next _ (.inl rfl) answer (later row (index + 1) next)
      | descend =>
        by_cases call : ∃ name args, n = .call name args
        · obtain ⟨name, args, rfl⟩ := call
          have inner := inside name args rfl (Row.below (row.place index) name args) 0 next
          rw [rewriteNode_descended answer]
          exact descended row index state name args ns next _ _ answer inner (later row (index + 1) _)
        · have leaf : Stays n .descend := .inr ⟨rfl, by simpa using call⟩
          rw [rewriteNode_kept leaf answer]
          exact kept row index state n ns .descend next _ leaf answer (later row (index + 1) next)

/-- A visitor that always goes on leaves the tree as it is. -/
theorem rewrite_descending (goes : ∀ n p state, (visit n p state).1 = .descend) (row : Row) (index : Nat)
    (state : σ) (ns : List Node) :
    (rewrite visit row index state ns).nodes = ns ∧
      ∀ c ∈ (rewrite visit row index state ns).calls, c.action = .descend := by
  refine rewrite_induction visit (motive := fun _ _ _ ns r =>
    r.nodes = ns ∧ ∀ c ∈ r.calls, c.action = .descend) ?_ ?_ ?_ ?_ row index state ns
  · intro row index state
    exact ⟨rfl, by simp⟩
  · intro row index state n ns nodes next later answer ih
    have descends := goes n (row.place index) state
    rw [answer] at descends
    cases descends
  · intro row index state n ns a next later stays answer ih
    have descends := goes n (row.place index) state
    rw [answer] at descends
    exact ⟨congrArg (n :: ·) ih.1, List.forall_mem_cons.mpr ⟨descends, ih.2⟩⟩
  · intro row index state name args ns next inner later answer below ih
    refine ⟨by rw [below.1, ih.1], List.forall_mem_cons.mpr ⟨rfl, ?_⟩⟩
    exact List.forall_mem_append.mpr ⟨below.2, ih.2⟩

end

/-- The visitor with its calls and answers written down. -/
def Visitor.logged {σ : Type} (visit : Visitor σ) : Visitor (σ × List Call) :=
  fun n p (state, calls) =>
    let (a, next) := visit n p state
    (a, next, calls ++ [⟨n, p, a⟩])

/-- The actions of the calls are the visitor's answers, and its state goes from each call to the
next. -/
inductive Answered {σ : Type} (visit : Visitor σ) : σ → List Call → σ → Prop
  | done (state : σ) : Answered visit state [] state
  | call {c : Call} {calls : List Call} {state next last : σ}
    (answer : visit c.node c.position state = (c.action, next))
    (later : Answered visit next calls last) : Answered visit state (c :: calls) last

/-- `n` stands at `p` in the tree. -/
inductive Located (tree : List Node) : Node → Position → Prop
  | root {i : Nat} {n : Node} (found : tree[i]? = some n) : Located tree n ((Row.top tree).place i)
  | argument {name : Text} {args : List Node} {p : Position} {i : Nat} {n : Node}
    (outer : Located tree (.call name args) p) (found : args[i]? = some n) :
    Located tree n ((Row.below p name args).place i)

/-- The place of the sibling number `index`. -/
def Position.at (p : Position) (index : Nat) : Position := { p with index, path := p.sibling index }

theorem Position.sibling_at (p : Position) (i j : Nat) : (p.at i).sibling j = p.sibling j := by
  simp [Position.at, Position.sibling]

namespace Located

variable {tree : List Node} {n m : Node} {p q : Position}

theorem found (here : Located tree n p) : p.siblings[p.index]? = some n := by
  cases here with
  | root found => exact found
  | argument outer found => exact found

theorem path_eq (here : Located tree n p) : p.path = p.path.dropLast ++ [p.index] := by
  cases here with
  | root => rfl
  | argument => simp [Row.place]

theorem path_ne_nil (here : Located tree n p) : p.path ≠ [] := by
  rw [here.path_eq]
  exact List.concat_ne_nil _ _

theorem sibling_eq (here : Located tree n p) (index : Nat) : p.sibling index = p.path.dropLast ++ [index] := by
  rw [Position.sibling, here.path_eq]
  simp

theorem sibling_self (here : Located tree n p) : p.sibling p.index = p.path := by
  rw [here.sibling_eq, ← here.path_eq]

/-- The other siblings stand in the tree as well. -/
theorem sibling (here : Located tree n p) {index : Nat} (other : p.siblings[index]? = some m) :
    Located tree m (p.at index) := by
  cases here with
  | root => exact .root other
  | @argument name args p i n outer =>
    have place : ((Row.below p name args).place i).at index = (Row.below p name args).place index := by
      simp [Row.place, Position.at, Position.sibling]
    rw [place]
    exact .argument outer other

/-- Nodes below one and the same path have the same siblings. -/
theorem siblings_eq (here : Located tree n p) (there : Located tree m q)
    (same : p.path.dropLast = q.path.dropLast) : p.siblings = q.siblings := by
  induction here generalizing m q with
  | root =>
    cases there with
    | root => rfl
    | @argument name args q j m outer found' =>
      have path : q.path = [] := by simpa [Row.place, Row.top, Row.below] using same.symm
      exact absurd path outer.path_ne_nil
  | @argument name args p i n outer found ih =>
    cases there with
    | root =>
      have path : p.path = [] := by simpa [Row.place, Row.top, Row.below] using same
      exact absurd path outer.path_ne_nil
    | @argument name' args' q j m outer' found' =>
      -- The calls above have one path, so they are one call.
      have path : p.path = q.path := by simpa [Row.place, Row.below] using same
      have index : p.index = q.index := by
        have last := congrArg List.getLast? (outer.path_eq.symm.trans (path.trans outer'.path_eq))
        simpa using last
      have siblings : p.siblings = q.siblings := ih outer' (congrArg List.dropLast path)
      have calls : some (Node.call name args) = some (.call name' args') := by
        rw [← outer.found, ← outer'.found, siblings, index]
      cases calls
      rfl

/-- Where a path is the one of a sibling of `q`, the node there is that sibling. -/
theorem beside (here : Located tree n p) (there : Located tree m q) {index : Nat}
    (path : p.path = q.sibling index) : p.siblings = q.siblings ∧ p.index = index := by
  rw [here.path_eq, there.sibling_eq] at path
  obtain ⟨above, last⟩ := List.append_inj' path rfl
  exact ⟨here.siblings_eq there above, List.singleton_inj.mp last⟩

end Located

/-- The second call is made later, and where it is below the first one the first was answered by
going on below. -/
def Call.Before (c d : Call) : Prop :=
  c.position.path < d.position.path ∧
    (c.position.path <+: d.position.path → c.action = .descend)

section

variable {σ : Type} (visit : Visitor σ)

theorem Answered.append {visit : Visitor σ} {state next last : σ} {calls more : List Call}
    (first : Answered visit state calls next) (second : Answered visit next more last) :
    Answered visit state (calls ++ more) last := by
  induction first with
  | done => exact second
  | call answer later ih => exact .call answer (ih second)

theorem rewrite_answered (row : Row) (index : Nat) (state : σ) (ns : List Node) :
    Answered visit state (rewrite visit row index state ns).calls
      (rewrite visit row index state ns).state := by
  refine rewrite_induction visit (motive := fun _ _ state _ r => Answered visit state r.calls r.state)
    ?_ ?_ ?_ ?_ row index state ns
  · intro row index state
    exact .done state
  · intro row index state n ns nodes next later answer ih
    exact .call answer ih
  · intro row index state n ns a next later stays answer ih
    exact .call answer ih
  · intro row index state name args ns next inner later answer below ih
    exact .call answer (below.append ih)

/-- Writing the calls down changes nothing else. -/
theorem rewrite_logged (row : Row) (index : Nat) (state : σ) (log : List Call) (ns : List Node) :
    rewrite visit.logged row index (state, log) ns =
      let r := rewrite visit row index state ns
      ⟨r.nodes, r.calls, (r.state, log ++ r.calls)⟩ := by
  refine rewrite_induction visit (motive := fun row index state ns r => ∀ log,
      rewrite visit.logged row index (state, log) ns = ⟨r.nodes, r.calls, (r.state, log ++ r.calls)⟩)
    ?_ ?_ ?_ ?_ row index state ns log
  · intro row index state log
    simp [rewrite]
  · intro row index state n ns nodes next later answer ih log
    have logged : visit.logged n (row.place index) (state, log) =
        (.replace nodes, next, log ++ [⟨n, row.place index, .replace nodes⟩]) := by
      simp [Visitor.logged, answer]
    rw [rewrite, rewriteNode_replaced logged]
    simp [ih]
  · intro row index state n ns a next later stays answer ih log
    have logged : visit.logged n (row.place index) (state, log) =
        (a, next, log ++ [⟨n, row.place index, a⟩]) := by
      simp [Visitor.logged, answer]
    rw [rewrite, rewriteNode_kept stays logged]
    simp [ih]
  · intro row index state name args ns next inner later answer below ih log
    have logged : visit.logged (.call name args) (row.place index) (state, log) =
        (.descend, next, log ++ [⟨.call name args, row.place index, .descend⟩]) := by
      simp [Visitor.logged, answer]
    rw [rewrite, rewriteNode_descended logged]
    simp [below, ih]

/-- The call is made at the sibling number `index` or below it. -/
def Call.Within (row : Row) (index : Nat) (c : Call) : Prop :=
  ∃ rest, c.position.path = row.above ++ index :: rest

theorem within_place (row : Row) (index : Nat) (n : Node) (a : Action) :
    Call.Within row index ⟨n, row.place index, a⟩ := ⟨[], rfl⟩

theorem within_below {row : Row} {index i : Nat} {name : Text} {args : List Node} {c : Call}
    (inside : Call.Within (Row.below (row.place index) name args) i c) : Call.Within row index c := by
  obtain ⟨rest, path⟩ := inside
  exact ⟨i :: rest, by simpa [Row.below, Row.place] using path⟩

/-- Calls for a sibling come before the calls for the siblings behind it. -/
theorem before_of_within {row : Row} {i j : Nat} {c d : Call} (first : Call.Within row i c)
    (second : Call.Within row j d) (order : i < j) : c.Before d := by
  obtain ⟨rest, path⟩ := first
  obtain ⟨rest', path'⟩ := second
  constructor
  · rw [path, path']
    apply List.append_left_lt
    exact List.cons_lt_cons_iff.mpr (.inl order)
  · intro above
    rw [path, path', List.prefix_append_right_inj, List.cons_prefix_cons] at above
    omega

/-- A call that is answered by going on below comes before the calls below. -/
theorem before_below {n : Node} {p : Position} {name : Text} {args : List Node} {i : Nat} {d : Call}
    (inside : Call.Within (Row.below p name args) i d) : Call.Before ⟨n, p, .descend⟩ d := by
  obtain ⟨rest, path⟩ := inside
  refine ⟨?_, fun _ => rfl⟩
  rw [path]
  have longer : p.path ++ [] < p.path ++ i :: rest := List.append_left_lt (List.nil_lt_cons i rest)
  simpa [Row.below] using longer

/-- The calls are made at the siblings from `index` on and below them, in order. -/
def Ordered (row : Row) (index : Nat) (calls : List Call) : Prop :=
  (∀ c ∈ calls, ∃ i, index ≤ i ∧ Call.Within row i c) ∧ calls.Pairwise Call.Before

theorem ordered_append {row : Row} {index : Nat} (calls : List Call) {more : List Call}
    (here : ∀ c ∈ calls, Call.Within row index c) (first : calls.Pairwise Call.Before)
    (later : Ordered row (index + 1) more) : Ordered row index (calls ++ more) := by
  constructor
  · intro c member
    rcases List.mem_append.mp member with member | member
    · exact ⟨index, Nat.le_refl index, here c member⟩
    · obtain ⟨i, behind, within⟩ := later.1 c member
      exact ⟨i, Nat.le_of_succ_le behind, within⟩
  · apply List.pairwise_append.mpr
    refine ⟨first, later.2, ?_⟩
    intro c member d behind
    obtain ⟨i, order, within⟩ := later.1 d behind
    exact before_of_within (here c member) within order

theorem rewrite_ordered (row : Row) (index : Nat) (state : σ) (ns : List Node) :
    Ordered row index (rewrite visit row index state ns).calls := by
  refine rewrite_induction visit (motive := fun row index _ _ r => Ordered row index r.calls)
    ?_ ?_ ?_ ?_ row index state ns
  · intro row index state
    exact ⟨by simp, .nil⟩
  · intro row index state n ns nodes next later answer ih
    apply ordered_append [_] _ (List.pairwise_singleton _ _) ih
    simpa using within_place row index n _
  · intro row index state n ns a next later stays answer ih
    apply ordered_append [_] _ (List.pairwise_singleton _ _) ih
    simpa using within_place row index n a
  · intro row index state name args ns next inner later answer below ih
    apply ordered_append (_ :: inner.calls) _ _ ih
    · intro c member
      rcases List.mem_cons.mp member with rfl | inside
      · exact within_place row index _ _
      · obtain ⟨i, -, within⟩ := below.1 c inside
        exact within_below within
    · apply List.Pairwise.cons _ below.2
      intro d inside
      obtain ⟨i, -, within⟩ := below.1 d inside
      exact before_below within

/-- Where one of the calls is below another one, that one was answered by going on below. -/
theorem Ordered.descends {row : Row} {index : Nat} {calls : List Call}
    (ordered : Ordered row index calls) {c d : Call} (first : c ∈ calls) (second : d ∈ calls)
    (above : c.position.path <+: d.position.path) (other : c.position.path ≠ d.position.path) :
    c.action = .descend := by
  have each := List.pairwise_iff_getElem.mp ordered.2
  obtain ⟨i, inside, rfl⟩ := List.getElem_of_mem first
  obtain ⟨j, inside', rfl⟩ := List.getElem_of_mem second
  rcases Nat.lt_trichotomy i j with earlier | rfl | later
  · exact (each i j inside inside' earlier).2 above
  · exact absurd rfl other
  · exact absurd (each j i inside' inside later).1 (List.not_lt.mpr above.le)

/-- These are the siblings of a row of the tree from `index` on. -/
def Standing (tree : List Node) (row : Row) (index : Nat) (ns : List Node) : Prop :=
  ∀ i n, ns[i]? = some n → Located tree n (row.place (index + i))

theorem standing_top (tree : List Node) : Standing tree (Row.top tree) 0 tree := by
  intro i m found
  rw [Nat.zero_add]
  exact .root found

theorem Standing.tail {tree : List Node} {row : Row} {index : Nat} {n : Node} {ns : List Node}
    (standing : Standing tree row index (n :: ns)) : Standing tree row (index + 1) ns := by
  intro i m found
  have shifted : index + 1 + i = index + (i + 1) := by omega
  rw [shifted]
  exact standing (i + 1) m found

theorem Standing.below {tree : List Node} {row : Row} {index : Nat} {name : Text} {args ns : List Node}
    (standing : Standing tree row index (.call name args :: ns)) :
    Standing tree (Row.below (row.place index) name args) 0 args := by
  intro i m found
  rw [Nat.zero_add]
  exact .argument (standing 0 _ rfl) found

/-- Every call is made at a node of the tree, in its place. -/
theorem located_of_call (tree : List Node) (row : Row) (index : Nat) (state : σ) (ns : List Node)
    (standing : Standing tree row index ns) :
    ∀ c ∈ (rewrite visit row index state ns).calls, Located tree c.node c.position := by
  refine rewrite_induction visit (motive := fun row index _ ns r => Standing tree row index ns →
    ∀ c ∈ r.calls, Located tree c.node c.position) ?_ ?_ ?_ ?_ row index state ns standing
  · intro row index state standing c member
    cases member
  · intro row index state n ns nodes next later answer ih standing c member
    rcases List.mem_cons.mp member with rfl | member
    · exact standing 0 n rfl
    · exact ih standing.tail c member
  · intro row index state n ns a next later stays answer ih standing c member
    rcases List.mem_cons.mp member with rfl | member
    · exact standing 0 n rfl
    · exact ih standing.tail c member
  · intro row index state name args ns next inner later answer below ih standing c member
    rcases List.mem_cons.mp member with rfl | member
    · exact standing 0 _ rfl
    · rcases List.mem_append.mp member with inside | behind
      · exact below standing.below c inside
      · exact ih standing.tail c behind

/-- The visitor is called on each sibling, and on each argument of a call that it answered by going
on below. -/
structure Exhaustive (row : Row) (index : Nat) (ns : List Node) (calls : List Call) : Prop where
  siblings : ∀ i n, ns[i]? = some n → ∃ a, ⟨n, row.place (index + i), a⟩ ∈ calls
  arguments : ∀ name args p i n, ⟨.call name args, p, .descend⟩ ∈ calls → args[i]? = some n →
    ∃ a, ⟨n, (Row.below p name args).place i, a⟩ ∈ calls

theorem Exhaustive.cons {row : Row} {index : Nat} {n : Node} {ns : List Node} {a : Action}
    {later : List Call} (rest : Exhaustive row (index + 1) ns later) (inside : List Call)
    (below : ∀ name args p i m, ⟨.call name args, p, .descend⟩ ∈ ⟨n, row.place index, a⟩ :: inside →
      args[i]? = some m → ∃ b, ⟨m, (Row.below p name args).place i, b⟩ ∈ inside) :
    Exhaustive row index (n :: ns) (⟨n, row.place index, a⟩ :: (inside ++ later)) := by
  constructor
  · intro i m found
    cases i with
    | zero =>
      cases found
      exact ⟨a, by simp⟩
    | succ i =>
      obtain ⟨b, member⟩ := rest.siblings i m found
      have shifted : index + (i + 1) = index + 1 + i := by omega
      exact ⟨b, by simp [shifted, member]⟩
  · intro name args p i m member found
    rcases List.mem_append.mp (List.cons_append ▸ member) with here | behind
    · obtain ⟨b, member⟩ := below name args p i m here found
      exact ⟨b, by simp [member]⟩
    · obtain ⟨b, member⟩ := rest.arguments name args p i m behind found
      exact ⟨b, by simp [member]⟩

theorem rewrite_exhaustive (row : Row) (index : Nat) (state : σ) (ns : List Node) :
    Exhaustive row index ns (rewrite visit row index state ns).calls := by
  refine rewrite_induction visit (motive := fun row index _ ns r => Exhaustive row index ns r.calls)
    ?_ ?_ ?_ ?_ row index state ns
  · intro row index state
    exact ⟨by simp, by simp⟩
  · intro row index state n ns nodes next later answer ih
    refine ih.cons [] ?_
    simp
  · intro row index state n ns a next later stays answer ih
    refine ih.cons [] ?_
    intro name args p i m member found
    cases List.mem_singleton.mp member
    rcases stays with skipped | ⟨-, leaf⟩
    · cases skipped
    · exact absurd rfl (leaf name args)
  · intro row index state name args ns next inner later answer below ih
    refine ih.cons inner.calls ?_
    intro name' args' p i m member found
    rcases List.mem_cons.mp member with here | inside
    · cases here
      simpa using below.siblings i m found
    · exact below.arguments name' args' p i m inside found

/-- The visitor is called on exactly the nodes that are not below one it answered otherwise than by
going on below. -/
theorem called_iff (tree : List Node) (state : σ) (n : Node) (p : Position) :
    let calls := (rewrite visit (Row.top tree) 0 state tree).calls
    (∃ a, ⟨n, p, a⟩ ∈ calls) ↔ Located tree n p ∧
      ∀ c ∈ calls, c.position.path <+: p.path → c.position.path ≠ p.path → c.action = .descend := by
  intro calls
  have exhaustive := rewrite_exhaustive visit (Row.top tree) 0 state tree
  constructor
  · rintro ⟨a, member⟩
    refine ⟨located_of_call visit tree (Row.top tree) 0 state tree (standing_top tree) _ member, ?_⟩
    intro c earlier above other
    exact (rewrite_ordered visit (Row.top tree) 0 state tree).descends earlier member above other
  · rintro ⟨located, open_above⟩
    induction located with
    | root found => simpa using exhaustive.siblings _ _ found
    | @argument name args p i n outer found ih =>
      have deeper : p.path <+: ((Row.below p name args).place i).path := List.prefix_append _ _
      have longer : p.path.length < ((Row.below p name args).place i).path.length := by
        simp [Row.below, Row.place]
      obtain ⟨a, called⟩ := ih fun c member above other => by
        apply open_above c member (above.trans deeper)
        intro same
        have shorter := above.length_le
        rw [same] at shorter
        omega
      have descended : a = .descend := by
        apply open_above ⟨_, p, a⟩ called deeper
        intro same
        rw [← same] at longer
        exact Nat.lt_irrefl _ longer
      subst descended
      exact exhaustive.arguments name args p i n called found

end

end AtomicCss.Value
