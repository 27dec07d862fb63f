import TreeQuery.Proofs.Course.Settled
import TreeQuery.Proofs.Search.Adequacy
import TreeQuery.Tree

/-! What a search of all nodes comes to. It is what the enumerations at the nodes come to, each of them
from the beginning and in preorder, and the search does no more than it is asked for. -/

namespace TreeQuery

variable {D K H : Type} [TreeLike D K] [BEq D] [BEq K]

def Enumerator.EndsWith (host : Host D K H) (e : Enumerator D K H)
    (output : Output (Call D H) (Except MatchError (Env D))) : Prop :=
  ∃ fuel limit reply, e.take host fuel limit = some reply ∧ reply.answer.ending ≠ .limit ∧
    reply.answer.itemized = output.items ∧ reply.calls = output.events

def Search.EndsWith (host : Host D K H) (s : Search D K H)
    (output : Output (Call D H) (Except MatchError (Env D))) : Prop :=
  ∃ fuel limit reply, s.take host fuel limit = some reply ∧ reply.answer.ending = .exhausted ∧
    reply.answer.items = output.items ∧ reply.calls = output.events

/-- The last item of the reply belongs to one of the nodes. The enumerations at the nodes before it
have come to their ends, the one at this node has been asked for the items that it gave, and the host
has not been called for anything else. -/
def Search.StopsAmong (host : Host D K H) (pattern : Pattern D K H) (nodes : List D)
    (reply : SearchReply D K H (Results (Except MatchError (Env D)))) : Prop :=
  ∃ before d after outputs fuel count last, nodes = before ++ d :: after ∧
    List.Forall₂ (fun d output => (find d pattern).EndsWith host output) before outputs ∧
    (find d pattern).take host fuel (count + 1) = some last ∧
    last.answer.itemized.length = count + 1 ∧
    reply.answer.items = (Output.concat outputs).items ++ last.answer.itemized ∧
    reply.calls = (Output.concat outputs).events ++ last.calls

variable {host : Host D K H} {output : Output (Call D H) (Except MatchError (Env D))}

theorem Enumerator.endsWith_iff {e : Enumerator D K H} :
    e.EndsWith host output ↔ ∃ depth, (e.items host depth).output? = some output := by
  constructor
  · rintro ⟨fuel, limit, reply, returned, ended, items, calls⟩
    rcases take_of_returned returned with ⟨depth, taken, known, shows⟩
    have final : taken.1.ending ≠ .limit := fun open' => ended (by rw [shows.answer]; exact open')
    refine ⟨depth, (Course.output?_itemized_of_take known final).trans ?_⟩
    rw [← shows.answer, ← shows.calls, items, calls]
  · rintro ⟨depth, known⟩
    rcases Course.exists_take_of_output? known with ⟨limit, taken, shown, ended, items, calls⟩
    rcases returns_of_take shown with ⟨fuel, returns⟩
    rcases returns fuel (Nat.le_refl fuel) with ⟨reply, returned, shows⟩
    refine ⟨fuel, limit, reply, returned, ?_, ?_, shows.calls.trans calls⟩
    · rw [shows.answer]
      exact ended
    · rw [shows.answer, items]

theorem Enumerator.EndsWith.unique {e : Enumerator D K H}
    {other : Output (Call D H) (Except MatchError (Env D))} (ends : e.EndsWith host output)
    (ends' : e.EndsWith host other) : output = other := by
  rcases Enumerator.endsWith_iff.mp ends with ⟨depth, known⟩
  rcases Enumerator.endsWith_iff.mp ends' with ⟨depth', known'⟩
  exact Course.output?_unique e.items_grow known known'

theorem Enumerator.EndsWith.iff_eq {e : Enumerator D K H}
    {other : Output (Call D H) (Except MatchError (Env D))} (ends : e.EndsWith host output) :
    e.EndsWith host other ↔ other = output :=
  ⟨fun ends' => ends'.unique ends, fun same => same ▸ ends⟩

theorem Enumerator.EndsWith.settles {e : Enumerator D K H} (ends : e.EndsWith host output) :
    ∃ results, Course.Settles (fun depth => e.course host depth) results ∧
      output.items = (results.map Branch.captures).itemized := by
  rcases Enumerator.endsWith_iff.mp ends with ⟨depth, known⟩
  have closed := Course.closed_of_output? known
  rcases Course.output?_of_closed Branch.captures closed with ⟨calls, shown⟩
  cases known.symm.trans shown
  exact ⟨_, ⟨depth, closed, rfl⟩, rfl⟩

theorem Enumerator.endsWith_of_settles {e : Enumerator D K H} {results : Results (Branch D)}
    (settles : Course.Settles (fun depth => e.course host depth) results) :
    ∃ calls, e.EndsWith host ⟨(results.map Branch.captures).itemized, calls⟩ := by
  rcases settles with ⟨depth, closed, rfl⟩
  rcases Course.output?_of_closed Branch.captures closed with ⟨calls, shown⟩
  exact ⟨calls, Enumerator.endsWith_iff.mpr ⟨depth, shown⟩⟩

namespace Search

theorem course_grows (s : Search D K H) : Course.Grows fun depth => s.course host depth := by
  intro depth
  refine Course.Below.append ?_ (s.later_grows host depth)
  rw [here, here]
  cases s.current with
  | none => exact .refl _
  | some e => exact e.items_grow depth

theorem endsWith_iff {s : Search D K H} :
    s.EndsWith host output ↔ ∃ depth, (s.course host depth).output? = some output := by
  constructor
  · rintro ⟨fuel, limit, reply, returned, ended, items, calls⟩
    rcases take_of_returned returned with ⟨depth, known⟩
    refine ⟨depth, ?_⟩
    rw [Course.output?_of_take known ended, items, calls]
  · rintro ⟨depth, known⟩
    rcases Course.take_of_output? known (output.items.length + 1) with ⟨taken, shown, items, whole⟩
    rcases returns_of_take shown with ⟨fuel, returns⟩
    rcases returns fuel (Nat.le_refl fuel) with ⟨reply, returned, rfl⟩
    have ended := whole (Nat.lt_succ_self _)
    refine ⟨fuel, _, reply, returned, ended.1, ?_, ended.2⟩
    rw [items, List.take_of_length_le (Nat.le_succ _)]

theorem course_search (depth : Nat) (root : D) (p : Pattern D K H) :
    (search root p).course host depth =
      .concat ((TreeLike.nodes root).map fun d => (find d p).items host depth) := by
  rw [← preorder_eq_nodes]
  rfl

theorem EndsWith.unique {s : Search D K H} {other : Output (Call D H) (Except MatchError (Env D))}
    (ends : s.EndsWith host output) (ends' : s.EndsWith host other) : output = other := by
  rcases endsWith_iff.mp ends with ⟨depth, known⟩
  rcases endsWith_iff.mp ends' with ⟨depth', known'⟩
  exact Course.output?_unique s.course_grows known known'

theorem EndsWith.iff_eq {s : Search D K H} {other : Output (Call D H) (Except MatchError (Env D))}
    (ends : s.EndsWith host output) : s.EndsWith host other ↔ other = output :=
  ⟨fun ends' => ends'.unique ends, fun same => same ▸ ends⟩

theorem endsWith_nodes {root : D} {p : Pattern D K H}
    {own : D → Output (Call D H) (Except MatchError (Env D))}
    (each : ∀ d ∈ TreeLike.nodes root, (find d p).EndsWith host (own d)) :
    (search root p).EndsWith host (.concat ((TreeLike.nodes root).map own)) := by
  have settles : ∀ d ∈ TreeLike.nodes root, ∃ output depth,
      ((find d p).items host depth).output? = some output :=
    fun d member => ⟨own d, Enumerator.endsWith_iff.mp (each d member)⟩
  rcases Course.exists_depth_output? (fun d => (find d p).items_grow) settles with ⟨depth, known⟩
  refine endsWith_iff.mpr ⟨depth, ?_⟩
  rw [course_search]
  refine Course.output?_concat fun d member => ?_
  rcases known d member with ⟨output, found⟩
  rw [found, (Enumerator.endsWith_iff.mpr ⟨depth, found⟩).unique (each d member)]

theorem stopsAmong_of_take {root : D} {p : Pattern D K H} {fuel count : Nat}
    {reply : SearchReply D K H (Results (Except MatchError (Env D)))}
    (returned : (search root p).take host fuel (count + 1) = some reply)
    (full : reply.answer.items.length = count + 1) :
    StopsAmong host p (TreeLike.nodes root) reply := by
  rcases take_of_returned returned with ⟨depth, known⟩
  rw [course_search] at known
  rcases Course.take_concat known full with
    ⟨before, d, after, outputs, count', last, split, each, final, size, items, calls⟩
  rcases Course.take_of_itemized final with ⟨own, shown, items', calls'⟩
  rcases Enumerator.returns_of_take shown with ⟨fuel', returns⟩
  rcases returns fuel' (Nat.le_refl fuel') with ⟨partial', taken, shows⟩
  have itemized : partial'.answer.itemized = last.1.items := by rw [shows.answer, items']
  refine ⟨before, d, after, outputs, fuel', count', partial', split, ?_, taken, ?_, ?_, ?_⟩
  · exact each.imp fun d output known => Enumerator.endsWith_iff.mpr ⟨depth, known⟩
  · rw [itemized, size]
  · rw [itemized]
    exact items
  · rw [shows.calls, calls']
    exact calls

end Search

/-- A search of all nodes comes to what the enumerations at the nodes come to in preorder, if all of
them come to an end: to what the enumeration at the root comes to, then to what the searches of its
children come to. Each enumeration is one that begins at its node, and its error ends no other. As many
items can be taken as one likes, and for these no enumeration is begun at a node beyond the last of
them. -/
theorem search_nodes (host : Host D K H) (root : D) (p : Pattern D K H) :
    ((∀ d ∈ TreeLike.nodes root, ∃ output, (find d p).EndsWith host output) →
      ∃ own whole : D → Output (Call D H) (Except MatchError (Env D)),
        (∀ d ∈ TreeLike.nodes root,
          (find d p).EndsWith host (own d) ∧
          (∀ output, (search d p).EndsWith host output ↔ output = whole d) ∧
          whole d = own d ++ .concat ((TreeLike.children d).map whole) ∧
          whole d = .concat ((TreeLike.nodes d).map own)) ∧
        ∀ count, ∃ enough, ∀ fuel, enough ≤ fuel →
          ∃ reply, (search root p).take host fuel count = some reply ∧
            reply.answer.items = (whole root).items.take count) ∧
    ∀ fuel count reply, (search root p).take host fuel (count + 1) = some reply →
      reply.answer.items.length = count + 1 →
      Search.StopsAmong host p (TreeLike.nodes root) reply := by
  constructor
  · intro ends
    choose! own each using ends
    let whole (d : D) := Output.concat ((TreeLike.nodes d).map own)
    have wholly : ∀ d ∈ TreeLike.nodes root, (search d p).EndsWith host (whole d) := by
      intro d member
      exact Search.endsWith_nodes fun d' below => each d' (TreeLike.mem_nodes_trans below member)
    refine ⟨own, whole, fun d member => ⟨each d member, fun _ => (wholly d member).iff_eq, ?_, rfl⟩,
      fun count => ?_⟩
    · simp only [whole]
      rw [TreeLike.nodes_eq, List.map_cons, Output.concat_cons, List.map_flatMap,
        Output.concat_flatMap]
    · rcases Search.endsWith_iff.mp (wholly root (TreeLike.mem_nodes_self root)) with ⟨depth, known⟩
      rcases Course.take_of_output? known count with ⟨taken, shown, items, -⟩
      rcases Search.returns_of_take shown with ⟨enough, returns⟩
      refine ⟨enough, fun fuel more => ?_⟩
      rcases returns fuel more with ⟨reply, returned, rfl⟩
      exact ⟨reply, returned, items⟩
  · intro fuel count reply returned full
    exact Search.stopsAmong_of_take returned full

def noIntHost : Host Tree String Unit where
  test _ datum :=
    match datum with
    | .int _ => .error (.host "an integer")
    | _ => .ok true
  generate _ _ := .ok .wild

theorem search_nodes_noInt :
    let p : Pattern Tree String Unit := .and (.test ()) (.capture "x")
    let root : Tree := .list [.int 1, .sym "a"]
    (∃ output, (search root p).EndsWith noIntHost output ∧
      output.items = [.ok ⟨[("x", root)]⟩, .error (.host "an integer"), .ok ⟨[("x", .sym "a")]⟩]) ∧
    ∃ fuel reply, (search root p).take noIntHost fuel 2 = some reply ∧
      reply.answer.items = [.ok ⟨[("x", root)]⟩, .error (.host "an integer")] ∧
      Search.StopsAmong noIntHost p [root, .int 1, .sym "a"] reply := by
  intro p root
  have nodes : TreeLike.nodes root = [root, .int 1, .sym "a"] := by
    simp [root, TreeLike.nodes_eq, TreeLike.children, Tree.children]
  have atRoot : (find root p).EndsWith noIntHost
      ⟨[.ok ⟨[("x", root)]⟩], [.test () root]⟩ := ⟨20, 2, _, rfl, nofun, rfl, rfl⟩
  have atInt : (find (.int 1) p).EndsWith noIntHost
      ⟨[.error (.host "an integer")], [.test () (.int 1)]⟩ := ⟨20, 2, _, rfl, nofun, rfl, rfl⟩
  have atSym : (find (.sym "a") p).EndsWith noIntHost
      ⟨[.ok ⟨[("x", .sym "a")]⟩], [.test () (.sym "a")]⟩ := ⟨20, 2, _, rfl, nofun, rfl, rfl⟩
  have ends : ∀ d ∈ TreeLike.nodes root, ∃ output, (find d p).EndsWith noIntHost output := by
    rw [nodes]
    simp only [List.mem_cons, List.not_mem_nil, or_false, forall_eq_or_imp, forall_eq]
    exact ⟨⟨_, atRoot⟩, ⟨_, atInt⟩, ⟨_, atSym⟩⟩
  rcases search_nodes noIntHost root p with ⟨law, stops⟩
  rcases law ends with ⟨own, whole, each, takes⟩
  have known : ∀ d ∈ [root, .int 1, .sym "a"], (find d p).EndsWith noIntHost (own d) := by
    rw [← nodes]
    exact fun d member => (each d member).1
  simp only [List.mem_cons, List.not_mem_nil, or_false, forall_eq_or_imp, forall_eq] at known
  rcases each root (TreeLike.mem_nodes_self root) with ⟨_, wholly, _, inOrder⟩
  have items : (whole root).items =
      [.ok ⟨[("x", root)]⟩, .error (.host "an integer"), .ok ⟨[("x", .sym "a")]⟩] := by
    rw [inOrder, nodes, List.map_cons, List.map_cons, List.map_cons, known.1.unique atRoot,
      known.2.1.unique atInt, known.2.2.unique atSym]
    rfl
  refine ⟨⟨whole root, (wholly _).mpr rfl, items⟩, ?_⟩
  rcases takes 2 with ⟨fuel, returns⟩
  rcases returns fuel (Nat.le_refl fuel) with ⟨reply, returned, first⟩
  rw [items] at first
  refine ⟨fuel, reply, returned, first, nodes ▸ stops fuel 1 reply returned ?_⟩
  rw [first]
  rfl

end TreeQuery
