import TreeQuery.Datum.Basic

/-! A walk visits the nodes of a datum one at a time, a node before its children. -/

namespace TreeQuery

/-- The data still to be visited with all that is below them, on a stack with its top at the end. -/
structure Walk (D : Type) where
  stack : List D

namespace Walk

variable {D K : Type}

def ofPending (data : List D) : Walk D := ⟨data.reverse⟩

def pending (walk : Walk D) : List D := walk.stack.reverse

theorem pending_ofPending (data : List D) : (ofPending data).pending = data := List.reverse_reverse data

theorem ofPending_pending (walk : Walk D) : ofPending walk.pending = walk :=
  congrArg mk walk.stack.reverse_reverse

def ofRoot (root : D) : Walk D := ⟨[root]⟩

variable [TreeLike D K]

/-- Takes a datum off the stack, puts its children on it in order, and reverses just these. -/
def next? (walk : Walk D) : Option (D × Walk D) :=
  match walk.stack.getLast? with
  | none => none
  | some d =>
    let below := walk.stack.dropLast
    let pushed := below ++ TreeLike.children d
    some (d, ⟨pushed.take below.length ++ (pushed.drop below.length).reverse⟩)

theorem next?_nil : (ofPending [] : Walk D).next? = none := rfl

theorem next?_cons (d : D) (rest : List D) :
    (ofPending (d :: rest)).next? = some (d, ofPending (TreeLike.children d ++ rest)) := by
  simp [next?, ofPending]

theorem pending_of_end {walk : Walk D} (ended : walk.next? = none) : walk.pending = [] := by
  cases holds : walk.pending with
  | nil => rfl
  | cons d rest =>
      rw [← ofPending_pending walk, holds, next?_cons] at ended
      cases ended

theorem pending_of_visit {walk rest : Walk D} {d : D} (visits : walk.next? = some (d, rest)) :
    ∃ others, walk.pending = d :: others ∧ rest.pending = TreeLike.children d ++ others := by
  rw [← ofPending_pending walk] at visits
  cases holds : walk.pending with
  | nil =>
      rw [holds, next?_nil] at visits
      cases visits
  | cons first others =>
      rw [holds, next?_cons] at visits
      cases visits
      exact ⟨others, rfl, pending_ofPending _⟩

def size (walk : Walk D) : Nat := total TreeLike.size walk.pending

theorem size_of_next? {walk rest : Walk D} {d : D} (visited : walk.next? = some (d, rest)) :
    walk.size = rest.size + 1 := by
  rcases pending_of_visit visited with ⟨others, before, after⟩
  rw [size, size, before, after, total_cons, total_append, TreeLike.size_eq d]
  omega

def toList (walk : Walk D) : List D :=
  match visited : walk.next? with
  | none => []
  | some (d, rest) =>
    have := size_of_next? visited
    d :: rest.toList
termination_by walk.size

theorem toList_of_end {walk : Walk D} (ended : walk.next? = none) : walk.toList = [] := by
  rw [toList]
  split
  · rfl
  · next visits => cases ended.symm.trans visits

theorem toList_of_visit {walk rest : Walk D} {d : D} (visits : walk.next? = some (d, rest)) :
    walk.toList = d :: rest.toList := by
  rw [toList]
  split
  · next ended => cases ended.symm.trans visits
  · next visits' =>
      cases visits'.symm.trans visits
      rfl

end Walk

def preorder {D K : Type} [TreeLike D K] (root : D) : List D := (Walk.ofRoot root).toList

end TreeQuery
