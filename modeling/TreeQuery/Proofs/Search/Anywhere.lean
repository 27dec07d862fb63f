import TreeQuery.Proofs.Datum.Windows
import TreeQuery.Proofs.Enumerator.Termination
import TreeQuery.Proofs.Search.Nodes

/-! A pattern that generates itself for the children of a datum matches anywhere in the datum. It comes
to what a search of all nodes comes to, up to the first error. -/

namespace TreeQuery

open Course (Settles)

variable {D K H : Type}

/-- The pattern, or for each child what `handle` generates. If this is again the whole pattern, it
looks for `p` at a datum and at all that is below. -/
def Pattern.anywhere (p : Pattern D K H) (handle : H) : Pattern D K H :=
  .or p (.window [.generate handle])

variable [TreeLike D K] [BEq D] [BEq K] {host : Host D K H} {p : Pattern D K H} {handle : H}

section Recursive

variable (made : ∀ env, host.generate handle env = .ok (p.anywhere handle))

include made

theorem Pattern.course_anywhere (config : MatchConfig) (depth : Nat) (datum : D) (branch : Branch D) :
    (p.anywhere handle).course host config (depth + 1) datum branch =
      p.course host config (depth + 1) datum branch ++
        .concat ((TreeLike.children datum).map fun child =>
          .event (.generate handle branch.captures)
            ((p.anywhere handle).course host config depth child branch)) := by
  have generated (child : D) :
      threadBy host config (Pattern.course host config depth) [.generate handle] [child] branch =
        .event (.generate handle branch.captures)
          ((p.anywhere handle).course host config depth child branch) := by
    have last : threadBy host config (Pattern.course host config depth) [] ([] : List D) = .pure := by
      funext branch
      simp only [threadBy]
    rw [threadBy, last, Course.bind_pure, courseBy, made]
  rw [course, anywhere, courseBy, courseBy, List.length_singleton, slices_one, List.map_map]
  exact congrArg _ (congrArg _ (List.map_congr_left fun child _ => generated child))

theorem Pattern.anywhere_settles {config : MatchConfig} {branch : Branch D}
    {own : D → Results (Branch D)} {root : D}
    (each : ∀ d ∈ TreeLike.nodes root,
      Settles (fun depth => p.course host config depth d branch) (own d)) :
    Settles (fun depth => (p.anywhere handle).course host config depth root branch)
      (.concat ((TreeLike.nodes root).map own)) := by
  have grows (q : Pattern D K H) (d : D) :
      Course.Grows fun depth => q.course host config depth d branch :=
    fun depth => course_below_succ depth q d branch
  induction root using TreeLike.induction_children with
  | step root ih =>
      have here := each root (TreeLike.mem_nodes_self root)
      have below : ∀ child ∈ TreeLike.children root,
          Settles (fun depth => .event (.generate handle branch.captures)
            ((p.anywhere handle).course host config depth child branch))
            (.concat ((TreeLike.nodes child).map own)) := by
        intro child member
        refine (ih child member fun d inside => each d ?_).event _
        exact TreeLike.mem_nodes_trans inside (TreeLike.mem_nodes_child member)
      refine Settles.of_succ ?_
      simp only [course_anywhere made]
      rw [TreeLike.nodes_eq, List.map_cons, List.map_flatMap, Results.concat, Results.concat_flatMap]
      refine (here.succ (grows p root)).append (.concat _ below ?_) ?_ ?_
      · exact fun child depth => .event _ (grows _ child depth)
      · exact fun depth => grows p root (depth + 1)
      · exact fun depth => .concat _ fun child => .event _ (grows _ child depth)

theorem Pattern.find_settles {own : D → Results (Branch D)} {root : D}
    (each : ∀ d ∈ TreeLike.nodes root,
      Settles (fun depth => (find d p).course host depth) (own d)) :
    Settles (fun depth => (find root (p.anywhere handle)).course host depth)
      (.concat ((TreeLike.nodes root).map own)) := by
  simp only [find, course_findWith] at each ⊢
  refine (anywhere_settles made fun d member => ?_).succ fun depth => course_below_succ depth _ root _
  exact (each d member).of_succ

end Recursive

/-- A pattern that generates itself for the children of a datum ends if the pattern does at all nodes.
It has the items of the search of all nodes up to the first error, and all of them if there is none. -/
theorem find_anywhere (host : Host D K H) (root : D) (p : Pattern D K H) (handle : H)
    (made : ∀ env, host.generate handle env = .ok (p.anywhere handle))
    (ends : ∀ d ∈ TreeLike.nodes root, ∃ output, (find d p).EndsWith host output) :
    (find root (p.anywhere handle)).Terminates host ∧
    ∃ inside found,
      (∀ output, (find root (p.anywhere handle)).EndsWith host output ↔ output = inside) ∧
      (∀ output, (search root p).EndsWith host output ↔ output = found) ∧
      inside.items = uptoError found.items ∧
      ((∀ error, .error error ∉ found.items) → inside.items = found.items) := by
  choose! output each using ends
  have settled : ∀ d ∈ TreeLike.nodes root, ∃ results,
      Settles (fun depth => (find d p).course host depth) results ∧
        (output d).items = (results.map Branch.captures).itemized :=
    fun d member => (each d member).settles
  choose! own settles items using settled
  have whole := Pattern.find_settles made settles
  have known : ∀ r ∈ ((TreeLike.nodes root).map own).map (Results.map Branch.captures),
      r.ending ≠ .limit := by
    simp only [List.forall_mem_map]
    exact fun d member => (settles d member).ending_ne_limit
  have same : ((TreeLike.nodes root).map output).flatMap Output.items =
      (((TreeLike.nodes root).map own).map (Results.map Branch.captures)).flatMap
        Results.itemized := by
    simp only [List.flatMap_map]
    exact List.flatMap_congr items
  rcases Enumerator.endsWith_of_settles whole with ⟨calls, inside⟩
  have found := Search.endsWith_nodes each
  have upto : (Results.map Branch.captures (.concat ((TreeLike.nodes root).map own))).itemized =
      uptoError (Output.concat ((TreeLike.nodes root).map output)).items := by
    calc
      _ = (Results.concat (((TreeLike.nodes root).map own).map (Results.map Branch.captures))).itemized := by
        rw [Results.map_concat]
      _ = uptoError ((((TreeLike.nodes root).map own).map (Results.map Branch.captures)).flatMap
          Results.itemized) := Results.itemized_concat known
      _ = uptoError (((TreeLike.nodes root).map output).flatMap Output.items) := by rw [same]
  refine ⟨?_, _, _, fun _ => inside.iff_eq, fun _ => found.iff_eq, upto, fun fine => ?_⟩
  · rcases whole with ⟨depth, closed, _⟩
    exact Enumerator.terminates_of_closed closed closed
  · exact upto.trans (uptoError_of_fine fine)

def captureNoInt : Pattern Tree String Unit := .and (.test ()) (.capture "x")

def anywhereHost : Host Tree String Unit where
  test := noIntHost.test
  generate _ _ := .ok (captureNoInt.anywhere ())

theorem find_anywhere_noInt :
    let root : Tree := .list [.int 1, .sym "a"]
    (∀ env, anywhereHost.generate () env = .ok (captureNoInt.anywhere ())) ∧
    (∀ d ∈ TreeLike.nodes root, ∃ output, (find d captureNoInt).EndsWith anywhereHost output) ∧
    (find root (captureNoInt.anywhere ())).Terminates anywhereHost ∧
    ∃ inside found, (find root (captureNoInt.anywhere ())).EndsWith anywhereHost inside ∧
      (search root captureNoInt).EndsWith anywhereHost found ∧
      found.items = [.ok ⟨[("x", root)]⟩, .error (.host "an integer"), .ok ⟨[("x", .sym "a")]⟩] ∧
      inside.items = [.ok ⟨[("x", root)]⟩, .error (.host "an integer")] := by
  intro root
  have nodes : TreeLike.nodes root = [root, .int 1, .sym "a"] := by
    simp [root, TreeLike.nodes_eq, TreeLike.children, Tree.children]
  have atRoot : (find root captureNoInt).EndsWith anywhereHost
      ⟨[.ok ⟨[("x", root)]⟩], [.test () root]⟩ := ⟨20, 2, _, rfl, nofun, rfl, rfl⟩
  have atInt : (find (.int 1) captureNoInt).EndsWith anywhereHost
      ⟨[.error (.host "an integer")], [.test () (.int 1)]⟩ := ⟨20, 2, _, rfl, nofun, rfl, rfl⟩
  have atSym : (find (.sym "a") captureNoInt).EndsWith anywhereHost
      ⟨[.ok ⟨[("x", .sym "a")]⟩], [.test () (.sym "a")]⟩ := ⟨20, 2, _, rfl, nofun, rfl, rfl⟩
  have made : ∀ env, anywhereHost.generate () env = .ok (captureNoInt.anywhere ()) := fun _ => rfl
  have ends : ∀ d ∈ TreeLike.nodes root, ∃ output,
      (find d captureNoInt).EndsWith anywhereHost output := by
    rw [nodes]
    simp only [List.mem_cons, List.not_mem_nil, or_false, forall_eq_or_imp, forall_eq]
    exact ⟨⟨_, atRoot⟩, ⟨_, atInt⟩, ⟨_, atSym⟩⟩
  rcases find_anywhere anywhereHost root captureNoInt () made ends with
    ⟨terminates, inside, found, recursive, searched, upto, -⟩
  have items : found.items =
      [.ok ⟨[("x", root)]⟩, .error (.host "an integer"), .ok ⟨[("x", .sym "a")]⟩] := by
    choose! own each using ends
    rw [← (searched _).mp (Search.endsWith_nodes each)]
    rw [nodes] at each ⊢
    simp only [List.mem_cons, List.not_mem_nil, or_false, forall_eq_or_imp, forall_eq] at each
    rw [List.map_cons, List.map_cons, List.map_cons, each.1.unique atRoot,
      each.2.1.unique atInt, each.2.2.unique atSym]
    rfl
  refine ⟨made, ends, terminates, inside, found, (recursive _).mpr rfl, (searched _).mpr rfl, items, ?_⟩
  rw [upto, items]
  rfl

end TreeQuery
