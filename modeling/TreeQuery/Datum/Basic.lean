/-! Data seen as trees: every datum has a kind and an ordered list of children. -/

namespace TreeQuery

def total {α : Type} (size : α → Nat) (items : List α) : Nat :=
  items.foldr (fun item rest => size item + rest) 0

@[simp] theorem total_nil {α : Type} (size : α → Nat) : total size [] = 0 := rfl

@[simp] theorem total_cons {α : Type} (size : α → Nat) (item : α) (items : List α) :
    total size (item :: items) = size item + total size items := rfl

@[simp] theorem total_append {α : Type} (size : α → Nat) (items more : List α) :
    total size (items ++ more) = total size items + total size more := by
  induction items with
  | nil => simp
  | cons item items ih =>
      rw [List.cons_append, total_cons, total_cons, ih]
      omega

/-- The size of a datum is the number of its nodes, so every walk over it ends. -/
class TreeLike (D : Type) (K : outParam Type) where
  kind : D → K
  children : D → List D
  size : D → Nat
  size_eq (d : D) : size d = total size (children d) + 1

namespace TreeLike

variable {D K : Type} [TreeLike D K]

def arity (d : D) : Nat := (children d).length

theorem size_le_total {child : D} {data : List D} (member : child ∈ data) :
    size child ≤ total size data := by
  induction member with
  | head => simp
  | tail _ _ ih => simp; omega

theorem size_lt_of_mem {child d : D} (member : child ∈ children d) : size child < size d := by
  have bound := size_le_total member
  rw [size_eq d]
  omega

/-- The nodes of a datum: itself, then the nodes of its children from left to right. -/
def nodes (d : D) : List D :=
  d :: (children d).attach.flatMap fun child => nodes child.1
termination_by size d
decreasing_by exact size_lt_of_mem child.2

theorem nodes_eq (d : D) : nodes d = d :: (children d).flatMap nodes := by
  rw [nodes]
  simp

end TreeLike

end TreeQuery
