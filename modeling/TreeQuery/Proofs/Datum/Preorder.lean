import TreeQuery.Pattern.Kind
import TreeQuery.Proofs.Datum.Nodes
import TreeQuery.Proofs.Datum.Places
import TreeQuery.Tree

/-! A walk visits the nodes of a datum in preorder, and on its stack are at any time the roots of
disjoint subtrees that hold just the nodes still to come, the next one on top. -/

namespace TreeQuery

open TreeLike (children node? nodes nodes_eq size)

variable {D K : Type} [tree : TreeLike D K]

namespace Walk

def visited : Nat → Walk D → List D
  | 0, _ => []
  | count + 1, walk =>
    match walk.next? with
    | none => []
    | some (d, rest) => d :: visited count rest

def after : Nat → Walk D → Walk D
  | 0, walk => walk
  | count + 1, walk =>
    match walk.next? with
    | none => walk
    | some (_, rest) => after count rest

theorem visited_of_end {walk : Walk D} (ended : walk.next? = none) (count : Nat) :
    walk.visited count = [] := by
  cases count with
  | zero => rfl
  | succ count => rw [visited, ended]

theorem after_of_end {walk : Walk D} (ended : walk.next? = none) (count : Nat) :
    walk.after count = walk := by
  cases count with
  | zero => rfl
  | succ count => rw [after, ended]

theorem visited_of_visit {walk rest : Walk D} {d : D} (visits : walk.next? = some (d, rest))
    (count : Nat) : walk.visited (count + 1) = d :: rest.visited count := by
  rw [visited, visits]

theorem after_of_visit {walk rest : Walk D} {d : D} (visits : walk.next? = some (d, rest))
    (count : Nat) : walk.after (count + 1) = rest.after count := by
  rw [after, visits]

theorem after_induction {P : List D → Prop} (step : ∀ d rest, P (d :: rest) → P (children d ++ rest))
    {walk : Walk D} (holds : P walk.pending) (count : Nat) : P (walk.after count).pending := by
  induction count generalizing walk with
  | zero => exact holds
  | succ count ih =>
      cases visits : walk.next? with
      | none =>
          rw [after_of_end visits]
          exact holds
      | some visit =>
          rcases visit with ⟨d, rest⟩
          rcases pending_of_visit visits with ⟨others, before, later⟩
          rw [after_of_visit visits]
          apply ih
          rw [later]
          exact step d others (before ▸ holds)

theorem visited_eq_take (count : Nat) (walk : Walk D) :
    walk.visited count = walk.toList.take count := by
  induction count generalizing walk with
  | zero => rfl
  | succ count ih =>
      cases visits : walk.next? with
      | none => rw [visited_of_end visits, toList_of_end visits, List.take_nil]
      | some visit =>
          rcases visit with ⟨d, rest⟩
          rw [visited_of_visit visits, toList_of_visit visits, List.take_succ_cons, ih]

theorem toList_after (count : Nat) (walk : Walk D) :
    (walk.after count).toList = walk.toList.drop count := by
  induction count generalizing walk with
  | zero => rfl
  | succ count ih =>
      cases visits : walk.next? with
      | none => rw [after_of_end visits, toList_of_end visits, List.drop_nil]
      | some visit =>
          rcases visit with ⟨d, rest⟩
          rw [after_of_visit visits, toList_of_visit visits, List.drop_succ_cons, ih]

theorem flatMap_pending_after (count : Nat) (walk : Walk D) :
    (walk.after count).pending.flatMap nodes = walk.toList.drop count :=
  calc
    _ = (walk.after count).toList := (toList_eq (walk.after count)).symm
    _ = walk.toList.drop count := toList_after count walk

theorem next?_after_eq_none_iff (count : Nat) (walk : Walk D) :
    (walk.after count).next? = none ↔ walk.toList.length ≤ count := by
  rw [← List.drop_eq_nil_iff, ← toList_after]
  constructor
  · exact toList_of_end
  · intro listed
    cases visits : (walk.after count).next? with
    | none => rfl
    | some visit =>
        rw [toList_of_visit visits] at listed
        cases listed

omit tree in
theorem next?_congr {one other : TreeLike D K} {walk : Walk D}
    (same : ∀ visit ∈ @next? D K one walk, other.children visit.1 = one.children visit.1) :
    @next? D K other walk = @next? D K one walk := by
  unfold next? at same ⊢
  cases top : walk.stack.getLast? with
  | none => rfl
  | some d =>
      rw [top] at same
      dsimp only
      rw [same _ rfl]

omit tree in
/-- A walk asks for the children of the data that it delivers and of no others, so it goes on in the
same way whatever the children of the others are. -/
theorem visits_congr {one other : TreeLike D K} {count : Nat} {walk : Walk D}
    (same : ∀ d ∈ @visited D K one count walk, other.children d = one.children d) :
    @visited D K other count walk = @visited D K one count walk ∧
      @after D K other count walk = @after D K one count walk := by
  induction count generalizing walk with
  | zero => exact ⟨rfl, rfl⟩
  | succ count ih =>
      cases visits : @next? D K one walk with
      | none =>
          have visits' : @next? D K other walk = none :=
            visits ▸ next?_congr fun _ visited => by cases visits.symm.trans visited
          rw [@visited_of_end D K one _ visits, @visited_of_end D K other _ visits',
            @after_of_end D K one _ visits, @after_of_end D K other _ visits']
          exact ⟨rfl, rfl⟩
      | some visit =>
          rcases visit with ⟨d, rest⟩
          rw [@visited_of_visit D K one _ _ _ visits, List.forall_mem_cons] at same
          have visits' : @next? D K other walk = some (d, rest) := by
            rw [← visits]
            refine next?_congr fun visit visited => ?_
            cases visits.symm.trans visited
            exact same.1
          rw [@visited_of_visit D K one _ _ _ visits, @visited_of_visit D K other _ _ _ visits',
            @after_of_visit D K one _ _ _ visits, @after_of_visit D K other _ _ _ visits']
          rcases ih same.2 with ⟨sameVisits, sameRest⟩
          exact ⟨congrArg (d :: ·) sameVisits, sameRest⟩

end Walk

theorem total_map {α β : Type} (measure : β → Nat) (f : α → β) (items : List α) :
    total measure (items.map f) = total (fun item => measure (f item)) items := by
  induction items with
  | nil => rfl
  | cons item items ih => rw [List.map_cons, total_cons, total_cons, ih]

theorem TreeLike.length_nodes (d : D) : (nodes d).length = size d := by
  have listed (data : List D) (each : ∀ d ∈ data, (nodes d).length = size d) :
      (data.flatMap nodes).length = total size data := by
    induction data with
    | nil => rfl
    | cons d data ih =>
        rw [List.flatMap_cons, List.length_append, total_cons, each d List.mem_cons_self,
          ih fun d' present => each d' (List.mem_cons_of_mem d present)]
  induction d using induction_children with
  | step d ih => rw [nodes_eq, List.length_cons, listed _ ih, size_eq d]

structure Placed (D : Type) where
  place : List Nat
  node : D

namespace Placed

def ofRoot (root : D) : Placed D := ⟨[], root⟩

def below (placed : Placed D) : List (Placed D) :=
  (children placed.node).zipIdx.map fun child => ⟨placed.place ++ [child.2], child.1⟩

theorem map_node_below (placed : Placed D) : placed.below.map node = children placed.node := by
  rw [below, List.map_map]
  exact List.zipIdx_map_fst 0 _

instance : TreeLike (Placed D) K where
  kind placed := TreeLike.kind placed.node
  children := below
  size placed := size placed.node
  size_eq placed := by
    have sizes := total_map size node placed.below
    rw [map_node_below] at sizes
    rw [TreeLike.size_eq placed.node, sizes]

/-- No place of the tree is below both nodes. -/
def Disjoint (one other : Placed D) : Prop :=
  ∀ place, one.place <+: place → ¬ other.place <+: place

theorem prefix_of_below {child placed : Placed D} (member : child ∈ placed.below) :
    placed.place <+: child.place := by
  rcases List.mem_map.mp member with ⟨_, _, rfl⟩
  exact List.prefix_append _ _

theorem Disjoint.child {one other child : Placed D} (disjoint : one.Disjoint other)
    (member : child ∈ one.below) : child.Disjoint other :=
  fun place inside => disjoint place ((prefix_of_below member).trans inside)

theorem pairwise_below (placed : Placed D) : placed.below.Pairwise Disjoint := by
  have numbered : (children placed.node).zipIdx.Pairwise fun one other => one.2 ≠ other.2 := by
    rw [← List.pairwise_map, List.zipIdx_map_snd]
    exact List.nodup_range'
  refine List.pairwise_map.mpr (numbered.imp fun different place inside inside' => different ?_)
  have length (i j : Nat) : (placed.place ++ [i]).length = (placed.place ++ [j]).length := by
    rw [List.length_append, List.length_append]
    rfl
  have same := (List.prefix_of_prefix_length_le inside inside' (Nat.le_of_eq (length _ _))).eq_of_length
    (length _ _)
  exact List.head_eq_of_cons_eq (List.append_cancel_left same)

def StandsIn (root : D) (placed : Placed D) : Prop := node? root placed.place = some placed.node

theorem standsIn_ofRoot (root : D) : (ofRoot root).StandsIn root := rfl

theorem StandsIn.child {root : D} {child placed : Placed D} (stands : placed.StandsIn root)
    (member : child ∈ placed.below) : child.StandsIn root := by
  rcases List.mem_map.mp member with ⟨⟨d, i⟩, numbered, rfl⟩
  have here := List.mem_zipIdx_iff_getElem?.mp numbered
  calc
    _ = (node? root placed.place).bind fun d => node? d [i] := TreeLike.node?_append ..
    _ = node? placed.node [i] := by rw [stands, Option.bind_some]
    _ = some d := by
      rw [TreeLike.node?_cons, here, Option.bind_some]
      rfl

end Placed

namespace Walk

theorem map_node_after (count : Nat) (walk : Walk (Placed D)) :
    (walk.after count).pending.map Placed.node =
      ((ofPending (walk.pending.map Placed.node)).after count).pending := by
  induction count generalizing walk with
  | zero => exact (pending_ofPending _).symm
  | succ count ih =>
      cases visits : walk.next? with
      | none =>
          rw [after_of_end visits, pending_of_end visits, List.map_nil, after_of_end next?_nil]
          rfl
      | some visit =>
          rcases visit with ⟨placed, rest⟩
          rcases pending_of_visit visits with ⟨others, before, later⟩
          rw [after_of_visit visits, ih, later, before, List.map_append, List.map_cons,
            after_of_visit (next?_cons placed.node _)]
          exact congrArg (fun data => ((ofPending (data ++ _)).after count).pending)
            placed.map_node_below

theorem pairwise_disjoint_after {walk : Walk (Placed D)}
    (disjoint : walk.pending.Pairwise Placed.Disjoint) (count : Nat) :
    (walk.after count).pending.Pairwise Placed.Disjoint := by
  refine after_induction (P := List.Pairwise Placed.Disjoint) ?_ disjoint count
  intro placed rest apart
  rw [List.pairwise_cons] at apart
  refine List.pairwise_append.mpr ⟨placed.pairwise_below, apart.2, ?_⟩
  exact fun child member other present => (apart.1 other present).child member

theorem standsIn_after {root : D} {walk : Walk (Placed D)}
    (stand : ∀ placed ∈ walk.pending, placed.StandsIn root) (count : Nat) :
    ∀ placed ∈ (walk.after count).pending, placed.StandsIn root := by
  refine after_induction (P := fun pending => ∀ placed ∈ pending, Placed.StandsIn root placed) ?_
    stand count
  intro placed rest here
  rw [List.forall_mem_cons] at here
  exact List.forall_mem_append.mpr ⟨fun child member => Placed.StandsIn.child here.1 member, here.2⟩

end Walk

/-- A walk from the root lists the root and then the children from left to right, each with all that is
below it, and ends when it has delivered every node once. The stack holds after any number of visits,
read from the top, the roots of disjoint subtrees, and the nodes of these subtrees are just those still
to come. Up to there the walk depends on the children of the data delivered and on no others. -/
theorem walk_preorder (root : D) (count : Nat) :
    let walk := Walk.ofRoot root
    let rest := walk.after count
    preorder root = nodes root ∧ (nodes root).length = size root ∧
    walk.visited count = (preorder root).take count ∧
    (rest.next? = none ↔ size root ≤ count) ∧
    rest.pending.flatMap nodes = (preorder root).drop count ∧
    (∃ pending : List (Placed D), pending.map Placed.node = rest.pending ∧
      (∀ placed ∈ pending, placed.StandsIn root) ∧ pending.Pairwise Placed.Disjoint ∧
      pending.flatMap nodes = (preorder (Placed.ofRoot root)).drop count) ∧
    ∀ other : TreeLike D K,
      (∀ d ∈ @Walk.visited D K tree count walk, other.children d = tree.children d) →
      @Walk.visited D K other count walk = @Walk.visited D K tree count walk ∧
        @Walk.after D K other count walk = @Walk.after D K tree count walk := by
  intro walk rest
  have total : (preorder root).length = size root := by
    rw [preorder_eq_nodes, TreeLike.length_nodes]
  have ends : rest.next? = none ↔ size root ≤ count :=
    total ▸ Walk.next?_after_eq_none_iff count walk
  -- The same walk with the places shows where the data on the stack stand.
  let placed := (Walk.ofRoot (Placed.ofRoot root)).after count
  have stand : ∀ node ∈ placed.pending, node.StandsIn root :=
    Walk.standsIn_after (List.forall_mem_singleton.mpr (Placed.standsIn_ofRoot root)) count
  have disjoint : placed.pending.Pairwise Placed.Disjoint :=
    Walk.pairwise_disjoint_after (List.pairwise_singleton _ _) count
  refine ⟨preorder_eq_nodes root, TreeLike.length_nodes root, Walk.visited_eq_take count walk, ends,
    Walk.flatMap_pending_after count walk, ⟨placed.pending, Walk.map_node_after count _, stand, disjoint,
    Walk.flatMap_pending_after count _⟩, ?_⟩
  intro other same
  exact Walk.visits_congr same

def Pattern.conjuncts : Pattern Tree String Unit → Nat
  | .and left right => conjuncts left + conjuncts right + 1
  | _ => 1

/-- Patterns as trees in which a conjunction has its parts below it and all else is a leaf. -/
@[reducible] def conjunctTree : TreeLike (Pattern Tree String Unit) (PatternKind Tree String) where
  kind := Pattern.kind
  children
    | .and left right => [left, right]
    | _ => []
  size := Pattern.conjuncts
  size_eq p := by cases p <;> simp [Pattern.conjuncts]

theorem walk_preorder_conjunction :
    let root : Pattern Tree String Unit := .and (.capture "x") (.node "f" [.mark])
    let walk := Walk.ofRoot root
    walk.visited 2 = [root, .capture "x"] ∧
      (walk.after 2).pending.flatMap nodes = (preorder root).drop 2 ∧
      preorder root = [root, .capture "x", .node "f" [.mark], .mark] ∧
      (∀ d ∈ walk.visited 2, conjunctTree.children d = children d) ∧
      @Walk.visited _ _ conjunctTree 2 walk = [root, .capture "x"] ∧
      (@Walk.after _ _ conjunctTree 2 walk).pending = [.node "f" [.mark]] := by
  intro root walk
  have listed : preorder root = [root, .capture "x", .node "f" [.mark], .mark] := by
    simp [preorder_eq_nodes, root, nodes_eq, children, Pattern.children]
  have same : ∀ d ∈ walk.visited 2, conjunctTree.children d = children d :=
    List.forall_mem_cons.mpr ⟨rfl, List.forall_mem_singleton.mpr rfl⟩
  rcases walk_preorder root 2 with ⟨-, -, -, -, remains, -, depends⟩
  rcases depends conjunctTree same with ⟨sameVisits, sameRest⟩
  refine ⟨rfl, remains, listed, same, sameVisits, ?_⟩
  rw [sameRest]
  rfl

end TreeQuery
