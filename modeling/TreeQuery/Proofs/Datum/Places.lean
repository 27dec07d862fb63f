import Mathlib.Data.List.Basic
import TreeQuery.Datum.Basic

/-! Places in a datum. A place is the way down to a node, which child to take at each level. Equal
nodes have different places, and places of one depth are ordered from left to right. -/

namespace TreeQuery.TreeLike

variable {D K : Type} [TreeLike D K]

def node? (d : D) : List Nat → Option D
  | [] => some d
  | i :: place => (children d)[i]?.bind fun child => node? child place

theorem node?_cons (d : D) (i : Nat) (place : List Nat) :
    node? d (i :: place) = (children d)[i]?.bind fun child => node? child place := rfl

theorem node?_append (d : D) (place more : List Nat) :
    node? d (place ++ more) = (node? d place).bind fun child => node? child more := by
  induction place generalizing d with
  | nil => rfl
  | cons i place ih =>
      rw [List.cons_append, node?_cons, node?_cons, Option.bind_assoc]
      exact congrArg _ (funext fun child => ih child)

/-- There is one test for each level of the way down, and the node that the way comes to at this level
passes it. -/
structure Passes (tests : List (D → Bool)) (d : D) (place : List Nat) : Prop where
  depth : place.length = tests.length
  passes (i : Nat) (test : D → Bool) (here : tests[i]? = some test) :
    ∃ v, node? d (place.take (i + 1)) = some v ∧ test v = true

theorem passes_nil {d : D} {place : List Nat} : Passes [] d place ↔ place = [] := by
  constructor
  · intro passes
    exact List.eq_nil_of_length_eq_zero passes.depth
  · rintro rfl
    exact ⟨rfl, nofun⟩

theorem passes_cons {test : D → Bool} {tests : List (D → Bool)} {d : D} {i : Nat}
    {place : List Nat} :
    Passes (test :: tests) d (i :: place) ↔
      ∃ child, (children d)[i]? = some child ∧ test child = true ∧ Passes tests child place := by
  have way (j : Nat) : node? d ((i :: place).take (j + 1)) =
      (children d)[i]?.bind fun child => node? child (place.take j) := by
    rw [List.take_succ_cons, node?_cons]
  constructor
  · intro passes
    rcases passes.passes 0 test rfl with ⟨v, found, passed⟩
    rw [way, Option.bind_eq_some_iff] at found
    rcases found with ⟨child, first, same⟩
    obtain rfl : child = v := Option.some.inj same
    refine ⟨child, first, passed, Nat.succ.inj passes.depth, fun j test' here => ?_⟩
    rcases passes.passes (j + 1) test' here with ⟨v, found, passed⟩
    rw [way, first, Option.bind_some] at found
    exact ⟨v, found, passed⟩
  · rintro ⟨child, first, passed, passes⟩
    refine ⟨congrArg (· + 1) passes.depth, fun j test' here => ?_⟩
    rw [way, first, Option.bind_some]
    cases j with
    | zero =>
        cases here
        exact ⟨child, rfl, passed⟩
    | succ j => exact passes.passes j test' here

/-- The places to which a way down leads that passes the tests, each with its node. -/
def selected : List (D → Bool) → D → List (List Nat × D)
  | [], d => [([], d)]
  | test :: tests, d => (children d).zipIdx.flatMap fun child =>
    if test child.1 then
      (selected tests child.1).map fun place => (child.2 :: place.1, place.2)
    else []

theorem mem_selected {tests : List (D → Bool)} {d v : D} {place : List Nat} :
    (place, v) ∈ selected tests d ↔ Passes tests d place ∧ node? d place = some v := by
  induction tests generalizing d place with
  | nil =>
      rw [selected, List.mem_singleton, Prod.mk.injEq, passes_nil]
      constructor
      · rintro ⟨rfl, rfl⟩
        exact ⟨rfl, rfl⟩
      · rintro ⟨rfl, found⟩
        exact ⟨rfl, (Option.some.inj found).symm⟩
  | cons test tests ih =>
      rw [selected, List.mem_flatMap]
      constructor
      · rintro ⟨⟨child, i⟩, first, below⟩
        split at below
        · rename_i passed
          rcases List.mem_map.mp below with ⟨⟨rest, w⟩, member, same⟩
          cases same
          rcases ih.mp member with ⟨passes, found⟩
          have here := List.mem_zipIdx_iff_getElem?.mp first
          refine ⟨passes_cons.mpr ⟨child, here, passed, passes⟩, ?_⟩
          rw [node?_cons, here, Option.bind_some, found]
        · cases below
      · rintro ⟨passes, found⟩
        cases place with
        | nil => cases passes.depth
        | cons i rest =>
            rcases passes_cons.mp passes with ⟨child, here, passed, passes⟩
            rw [node?_cons, here, Option.bind_some] at found
            refine ⟨(child, i), List.mem_zipIdx_iff_getElem?.mpr here, ?_⟩
            rw [if_pos passed]
            exact List.mem_map.mpr ⟨(rest, v), ih.mpr ⟨passes, found⟩, rfl⟩

theorem pairwise_selected (tests : List (D → Bool)) (d : D) :
    (selected tests d).Pairwise fun one other => one.1 < other.1 := by
  induction tests generalizing d with
  | nil => exact List.pairwise_singleton _ _
  | cons test tests ih =>
      rw [selected, List.pairwise_flatMap]
      constructor
      · intro child _
        split
        · refine List.pairwise_map.mpr ((ih child.1).imp fun less => ?_)
          exact List.cons_lt_cons_iff.mpr (.inr ⟨rfl, less⟩)
        · exact .nil
      · have ordered : (children d).zipIdx.Pairwise fun one other => one.2 < other.2 := by
          rw [← List.pairwise_map, List.zipIdx_map_snd]
          exact List.pairwise_lt_range' 1
        refine ordered.imp fun less one member other member' => ?_
        split at member
        · split at member'
          · rcases List.mem_map.mp member with ⟨_, _, rfl⟩
            rcases List.mem_map.mp member' with ⟨_, _, rfl⟩
            exact List.cons_lt_cons_iff.mpr (.inl less)
          · cases member'
        · cases member

theorem map_selected_cons (test : D → Bool) (tests : List (D → Bool)) (d : D) :
    (selected (test :: tests) d).map Prod.snd =
      (children d).flatMap fun child =>
        if test child then (selected tests child).map Prod.snd else [] := by
  let below (child : D) := if test child then (selected tests child).map Prod.snd else []
  calc
    _ = (children d).zipIdx.flatMap fun child => below child.1 := by
      rw [selected, List.map_flatMap]
      refine List.flatMap_congr fun child _ => ?_
      simp only [below]
      split
      · rw [List.map_map]
        rfl
      · rfl
    _ = ((children d).zipIdx.map Prod.fst).flatMap below := (List.flatMap_map Prod.fst below _).symm
    _ = (children d).flatMap below := by rw [List.zipIdx_map_fst]

end TreeQuery.TreeLike
