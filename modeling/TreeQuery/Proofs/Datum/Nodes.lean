import TreeQuery.Datum.Walk

/-! The nodes of a datum as a set: what is below a node is below all that the node is below, and a walk
from the root visits just the nodes. -/

namespace TreeQuery

variable {D K : Type} [TreeLike D K]

namespace TreeLike

theorem induction_children {motive : D → Prop}
    (step : ∀ d, (∀ child ∈ children d, motive child) → motive d) (d : D) : motive d := by
  induction bound : size d using Nat.strongRecOn generalizing d with
  | ind n ih =>
      apply step
      intro child member
      have smaller : size child < n := bound ▸ size_lt_of_mem member
      exact ih (size child) smaller child rfl

theorem mem_nodes_iff {node d : D} :
    node ∈ nodes d ↔ node = d ∨ ∃ child ∈ children d, node ∈ nodes child := by
  rw [nodes_eq, List.mem_cons, List.mem_flatMap]

theorem mem_nodes_self (d : D) : d ∈ nodes d := mem_nodes_iff.mpr (.inl rfl)

theorem mem_nodes_child {child d : D} (member : child ∈ children d) : child ∈ nodes d :=
  mem_nodes_iff.mpr (.inr ⟨child, member, mem_nodes_self child⟩)

theorem mem_nodes_trans {node d root : D} (inner : node ∈ nodes d) (outer : d ∈ nodes root) :
    node ∈ nodes root := by
  induction root using induction_children with
  | step root ih =>
      rcases mem_nodes_iff.mp outer with rfl | ⟨child, member, below⟩
      · exact inner
      · exact mem_nodes_iff.mpr (.inr ⟨child, member, ih child member below⟩)

end TreeLike

open TreeLike (nodes nodes_eq)

/-- A walk visits the nodes of the data that are pending, one datum after the other. -/
theorem Walk.toList_eq (walk : Walk D) : walk.toList = walk.pending.flatMap nodes := by
  induction bound : walk.size using Nat.strongRecOn generalizing walk with
  | ind n ih =>
      cases visits : walk.next? with
      | none => rw [toList_of_end visits, pending_of_end visits, List.flatMap_nil]
      | some visit =>
          rcases visit with ⟨d, rest⟩
          rcases pending_of_visit visits with ⟨others, before, after⟩
          have smaller : rest.size < n := by
            rw [← bound, size_of_next? visits]
            exact Nat.lt_succ_self rest.size
          rw [toList_of_visit visits, ih rest.size smaller rest rfl, after, before,
            List.flatMap_append, List.flatMap_cons, nodes_eq d]
          rfl

theorem preorder_eq_nodes (root : D) : preorder root = nodes root := by
  have once : (Walk.ofRoot root).pending.flatMap nodes = nodes root := List.append_nil (nodes root)
  rw [preorder, Walk.toList_eq, once]

end TreeQuery
