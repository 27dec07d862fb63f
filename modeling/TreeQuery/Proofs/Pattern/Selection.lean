import TreeQuery.Proofs.Datum.Places
import TreeQuery.Proofs.Datum.Windows
import TreeQuery.Proofs.Search.Nodes

/-! A path that goes down a datum level by level, at each level to the children that pass a test. It
comes to the nodes whose way passes the tests, each of them once and from left to right. -/

namespace TreeQuery

open TreeLike (node? Passes selected)

variable {D K H : Type}

namespace Pattern

def markChild (handle : H) : Pattern D K H := .window [.and (.test handle) .mark]

/-- Goes down by one level for each of the tests, and binds the name at the end of the way. -/
def descent (handles : List H) (name : String) : Pattern D K H :=
  .path (handles.map markChild ++ [.capture name])

variable [TreeLike D K] [BEq D] [BEq K] {host : Host D K H} {config : MatchConfig}
  {expand : Pattern D K H → D → Branch D → Course (Call D H) (Branch D)}

theorem followBy_capture (name : String) (step : Nat) (datum : D) (branch : Branch D) :
    followBy host config expand [.capture name] step datum branch =
      .pure ⟨branch.captures.bind name datum, branch.marks⟩ := by
  have ends : (config.strictPaths && decide (0 < 0)) = false := Bool.and_false _
  rw [followBy, courseBy, Course.pure_bind, leaveStep, List.length_nil, ends]
  rfl

theorem followBy_markChild {handle : H} {passes : D → Bool}
    (infallible : ∀ datum, host.test handle datum = .ok (passes datum))
    (steps : List (Pattern D K H)) (step : Nat) (datum : D) (branch : Branch D) :
    followBy host config expand (markChild handle :: steps) step datum branch =
      .concat ((TreeLike.children datum).map fun child =>
        .event (.test handle child)
          (if passes child then followBy host config expand steps (step + 1) child branch
          else .done)) := by
  have marks (child : D) :
      threadBy host config expand [.and (.test handle) .mark] [child] ⟨branch.captures, []⟩ =
        .event (.test handle child)
          (if passes child then .pure ⟨branch.captures, [child]⟩ else .done) := by
    simp only [threadBy, courseBy, infallible, guardCourse]
    cases passes child <;> rfl
  rw [followBy, markChild, courseBy, List.length_singleton, slices_one, List.map_map,
    Course.concat_bind]
  refine congrArg _ (List.map_congr_left fun child _ => ?_)
  rw [Function.comp_apply, marks, Course.bind]
  refine congrArg _ ?_
  cases passes child with
  | false => rfl
  | true =>
      rw [if_pos rfl, if_pos rfl, Course.pure_bind]
      exact Course.append_done _

theorem output_descent {handles : List H} {passes : H → D → Bool}
    (infallible : ∀ handle ∈ handles, ∀ datum, host.test handle datum = .ok (passes handle datum))
    (name : String) (step : Nat) (datum : D) (branch : Branch D) :
    ∃ calls, (followBy host config expand (handles.map markChild ++ [.capture name]) step datum
        branch).output? =
      some ⟨((selected (handles.map passes) datum).map Prod.snd).map fun v =>
        ⟨branch.captures.bind name v, branch.marks⟩, calls⟩ := by
  induction handles generalizing step datum with
  | nil =>
      refine ⟨[], ?_⟩
      rw [List.map_nil, List.nil_append, followBy_capture]
      rfl
  | cons handle handles ih =>
      have later := ih fun other member => infallible other (List.mem_cons_of_mem handle member)
      choose calls known using later (step + 1)
      let bound (v : D) : Branch D := ⟨branch.captures.bind name v, branch.marks⟩
      let below (child : D) : List D :=
        if passes handle child then (selected (handles.map passes) child).map Prod.snd else []
      let own (child : D) : Output (Call D H) (Branch D) :=
        ⟨(below child).map bound,
          .test handle child :: if passes handle child then calls child else []⟩
      have each (child : D) :
          (Course.event (.test handle child)
            (if passes handle child then
              followBy host config expand (handles.map markChild ++ [.capture name]) (step + 1) child
                branch
            else .done)).output? = some (own child) := by
        simp only [own, below]
        split
        · rw [Course.output?, known]
          rfl
        · rfl
      refine ⟨(TreeLike.children datum).flatMap fun child => (own child).events, ?_⟩
      rw [List.map_cons, List.cons_append,
        followBy_markChild (infallible handle List.mem_cons_self),
        Course.output?_concat fun child _ => each child, List.map_cons, TreeLike.map_selected_cons,
        List.map_flatMap]
      simp only [Output.concat, List.flatMap_map]
      rfl

end Pattern

variable [TreeLike D K] [BEq D] [BEq K]

/-- Down a path of tests that do not fail there is one solution for each place whose way passes them,
one node for each test. The places are of the depth of the path. They come from left to right, and
the enumeration ends without an error after the last of them, whatever the options are. -/
theorem path_descent (host : Host D K H) (config : MatchConfig) (datum : D) (name : String)
    (handles : List H) (passes : H → D → Bool)
    (infallible : ∀ handle ∈ handles, ∀ d, host.test handle d = .ok (passes handle d)) :
    ∃ found : List (List Nat × D),
      (∀ place v, (place, v) ∈ found ↔
        Passes (handles.map passes) datum place ∧ node? datum place = some v) ∧
      found.Pairwise (fun one other => one.1 < other.1) ∧
      ∃ calls, (findWith datum (.descent handles name) config).EndsWith host
        ⟨found.map fun place => .ok ⟨[(name, place.2)]⟩, calls⟩ := by
  refine ⟨selected (handles.map passes) datum, fun place v => TreeLike.mem_selected,
    TreeLike.pairwise_selected _ datum, ?_⟩
  rcases Pattern.output_descent infallible name 0 datum ⟨.empty, []⟩ with ⟨calls, known⟩
  refine ⟨calls, Enumerator.endsWith_iff.mpr ⟨0, ?_⟩⟩
  have whole := Course.output?_itemized Branch.captures known
  rw [Enumerator.items, course_findWith, Pattern.course, Pattern.descent, Pattern.courseBy, whole,
    List.map_map, List.map_map]
  rfl

def kindHost : Host Tree String String where
  test kind tree := .ok (tree.kind == kind)
  generate _ _ := .ok .wild

theorem path_descent_leaves :
    let datum : Tree := .list [.list [.int 1], .int 1, .list [], .list [.sym "a", .int 1]]
    let passes (kind : String) (tree : Tree) : Bool := tree.kind == kind
    let solution (tree : Tree) : Except MatchError (Env Tree) := .ok ⟨[("x", tree)]⟩
    (∀ kind ∈ ["List", "Leaf"], ∀ tree, kindHost.test kind tree = .ok (passes kind tree)) ∧
      ∃ found : List (List Nat × Tree),
        (∀ place v, (place, v) ∈ found ↔
          Passes (["List", "Leaf"].map passes) datum place ∧ node? datum place = some v) ∧
        (found.map fun place => solution place.2) = [solution (.int 1), solution (.int 1)] ∧
        ∃ calls, (findWith datum (.descent ["List", "Leaf"] "x") { strictPaths := true }).EndsWith
          kindHost ⟨[solution (.int 1), solution (.int 1)], calls⟩ := by
  intro datum passes solution
  have infallible : ∀ kind ∈ ["List", "Leaf"], ∀ tree,
      kindHost.test kind tree = .ok (passes kind tree) := fun _ _ _ => rfl
  have known : ∃ calls, (findWith datum (.descent ["List", "Leaf"] "x")
      { strictPaths := true }).EndsWith kindHost ⟨[solution (.int 1), solution (.int 1)], calls⟩ :=
    ⟨_, 60, 3, _, rfl, nofun, rfl, rfl⟩
  obtain ⟨found, places, _, calls, ends⟩ :=
    path_descent kindHost { strictPaths := true } datum "x" ["List", "Leaf"] passes infallible
  obtain ⟨calls', ends'⟩ := known
  exact ⟨infallible, found, places, congrArg Output.items (ends.unique ends'), calls', ends'⟩

end TreeQuery
