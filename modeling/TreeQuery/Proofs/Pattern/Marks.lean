import TreeQuery.Pattern.Kind
import TreeQuery.Proofs.Datum.Nodes
import TreeQuery.Proofs.Enumerator.Agreement

/-! Marks act only within the step of a path that they are made in. They are handed on along a
branch without being read, and a path begins its steps without marks and ends with those from
before. -/

namespace TreeQuery

open Course (Alike)

variable {D K H : Type}

def Branch.Like (M : List D → List D → Prop) (branch branch' : Branch D) : Prop :=
  branch.captures = branch'.captures ∧ M branch.marks branch'.marks

abbrev Branch.SameCaptures : Branch D → Branch D → Prop := Branch.Like fun _ _ => True

namespace Pattern

mutual

/-- The pattern with a wildcard for each mark that is not inside a path. -/
def unmarked : Pattern D K H → Pattern D K H
  | .mark => .wild
  | .node kind items => .node kind (unmarkedAll items)
  | .contents items => .contents (unmarkedAll items)
  | .and left right => .and left.unmarked right.unmarked
  | .or left right => .or left.unmarked right.unmarked
  | .window items => .window (unmarkedAll items)
  | p => p

def unmarkedAll : List (Pattern D K H) → List (Pattern D K H)
  | [] => []
  | p :: ps => p.unmarked :: unmarkedAll ps

end

theorem unmarkedAll_eq_map (ps : List (Pattern D K H)) : unmarkedAll ps = ps.map unmarked := by
  induction ps with
  | nil => rfl
  | cons p ps ih => rw [unmarkedAll, ih, List.map_cons]

variable {config : MatchConfig} {M : List D → List D → Prop}

theorem guardCourse_like {branch branch' : Branch D} (like : branch.Like M branch') (holds : Bool) :
    Alike (Branch.Like M) (guardCourse branch holds : Course (Call D H) (Branch D))
      (guardCourse branch' holds) := by
  cases holds with
  | false => exact .done
  | true => exact .pure like

variable [TreeLike D K] [BEq D] [BEq K] {host : Host D K H}
variable {expand : Pattern D K H → D → Branch D → Course (Call D H) (Branch D)}

theorem followBy_like (steps : List (Pattern D K H)) :
    ∀ (step : Nat) (datum : D) {branch branch' : Branch D}, branch.Like M branch' →
      Alike (Branch.Like M) (followBy host config expand steps step datum branch)
        (followBy host config expand steps step datum branch') := by
  induction steps with
  | nil =>
      intro step datum branch branch' like
      simp only [followBy]
      exact .pure like
  | cons p steps ih =>
      intro step datum branch branch' like
      simp only [followBy, ← like.1]
      -- The step begins without marks, so it is solved in one and the same way on both branches.
      refine Alike.bind (.refl (fun _ => rfl) _) fun solved solved' same => ?_
      rw [← same]
      unfold leaveStep
      split
      · split
        · exact .failed _
        · exact .pure ⟨rfl, like.2⟩
      · exact .concat _ fun mark => ih (step + 1) mark ⟨rfl, like.2⟩

/-- From branches with the same bindings and related marks both patterns go on to such branches. -/
def HandsOn (host : Host D K H) (config : MatchConfig)
    (expand : Pattern D K H → D → Branch D → Course (Call D H) (Branch D))
    (M : List D → List D → Prop) (p p' : Pattern D K H) : Prop :=
  ∀ (datum : D) {branch branch' : Branch D}, branch.Like M branch' →
    Alike (Branch.Like M) (courseBy host config expand p datum branch)
      (courseBy host config expand p' datum branch')

theorem threadBy_like {ps ps' : List (Pattern D K H)}
    (each : List.Forall₂ (HandsOn host config expand M) ps ps') (data : List D)
    {branch branch' : Branch D} (like : branch.Like M branch') :
    Alike (Branch.Like M) (threadBy host config expand ps data branch)
      (threadBy host config expand ps' data branch') := by
  induction each generalizing data branch branch' with
  | nil =>
      simp only [threadBy]
      exact .pure like
  | cons first rest ih =>
      cases data with
      | nil =>
          simp only [threadBy]
          exact .pure like
      | cons datum data =>
          simp only [threadBy]
          exact (first datum like).bind fun _ _ between => ih data between

namespace HandsOn

theorem wild : HandsOn host config expand M .wild .wild := by
  intro datum branch branch' like
  simp only [courseBy]
  exact .pure like

theorem atom (value : D) : HandsOn host config expand M (.atom value) (.atom value) := by
  intro datum branch branch' like
  simp only [courseBy]
  exact guardCourse_like like _

theorem ofKind (kind : K) : HandsOn host config expand M (.ofKind kind) (.ofKind kind) := by
  intro datum branch branch' like
  simp only [courseBy]
  exact guardCourse_like like _

theorem capture (name : String) : HandsOn host config expand M (.capture name) (.capture name) := by
  intro datum branch branch' like
  simp only [courseBy, Branch.bind_eq, like.1]
  exact .pure ⟨rfl, like.2⟩

theorem template (name : String) :
    HandsOn host config expand M (.template name) (.template name) := by
  intro datum branch branch' like
  simp only [courseBy, Branch.earliest?_eq, like.1]
  split
  · exact guardCourse_like like _
  · split
    · exact .failed _
    · exact .done

theorem test (handle : H) : HandsOn host config expand M (.test handle) (.test handle) := by
  intro datum branch branch' like
  simp only [courseBy]
  refine .event _ ?_
  split
  · exact guardCourse_like like _
  · exact .failed _

theorem path (steps : List (Pattern D K H)) :
    HandsOn host config expand M (.path steps) (.path steps) := by
  intro datum branch branch' like
  simp only [courseBy]
  exact followBy_like steps 0 datum like

theorem mark (grows : ∀ marks marks' mark, M marks marks' → M (marks ++ [mark]) (marks' ++ [mark])) :
    HandsOn host config expand M .mark .mark := by
  intro datum branch branch' like
  simp only [courseBy]
  exact .pure ⟨like.1, grows _ _ datum like.2⟩

theorem generate (made : ∀ p datum branch branch', branch.Like M branch' →
      Alike (Branch.Like M) (expand p datum branch) (expand p datum branch')) (handle : H) :
    HandsOn host config expand M (.generate handle) (.generate handle) := by
  intro datum branch branch' like
  simp only [courseBy, like.1]
  refine .event _ ?_
  split
  · exact made _ datum _ _ like
  · exact .failed _

variable {left right left' right' : Pattern D K H} {items items' : List (Pattern D K H)}

theorem and (one : HandsOn host config expand M left left')
    (other : HandsOn host config expand M right right') :
    HandsOn host config expand M (.and left right) (.and left' right') := by
  intro datum branch branch' like
  simp only [courseBy]
  exact (one datum like).bind fun _ _ between => other datum between

theorem or (one : HandsOn host config expand M left left')
    (other : HandsOn host config expand M right right') :
    HandsOn host config expand M (.or left right) (.or left' right') := by
  intro datum branch branch' like
  simp only [courseBy]
  exact (one datum like).append (other datum like)

theorem node (kind : K) (each : List.Forall₂ (HandsOn host config expand M) items items') :
    HandsOn host config expand M (.node kind items) (.node kind items') := by
  intro datum branch branch' like
  simp only [courseBy, each.length_eq]
  split
  · exact threadBy_like each _ like
  · exact .done

theorem contents (each : List.Forall₂ (HandsOn host config expand M) items items') :
    HandsOn host config expand M (.contents items) (.contents items') := by
  intro datum branch branch' like
  simp only [courseBy, each.length_eq]
  split
  · exact threadBy_like each _ like
  · exact .done

theorem window (each : List.Forall₂ (HandsOn host config expand M) items items') :
    HandsOn host config expand M (.window items) (.window items') := by
  intro datum branch branch' like
  simp only [courseBy, each.length_eq]
  exact .concat _ fun run => threadBy_like each run like

end HandsOn

/-- No pattern reads the marks. All that it does to them is to add the same ones at the end. -/
theorem handsOn_self
    (grows : ∀ marks marks' mark, M marks marks' → M (marks ++ [mark]) (marks' ++ [mark]))
    (made : ∀ p datum branch branch', branch.Like M branch' →
      Alike (Branch.Like M) (expand p datum branch) (expand p datum branch'))
    (p : Pattern D K H) : HandsOn host config expand M p p := by
  induction p using TreeLike.induction_children with
  | step p ih =>
      cases p with
      | wild => exact .wild
      | atom value => exact .atom value
      | capture name => exact .capture name
      | template name => exact .template name
      | node kind items => exact .node kind (List.forall₂_same.mpr ih)
      | contents items => exact .contents (List.forall₂_same.mpr ih)
      | ofKind kind => exact .ofKind kind
      | and left right => exact .and (ih left (.head _)) (ih right (.tail _ (.head _)))
      | or left right => exact .or (ih left (.head _)) (ih right (.tail _ (.head _)))
      | mark => exact .mark grows
      | path steps => exact .path steps
      | window items => exact .window (List.forall₂_same.mpr ih)
      | test handle => exact .test handle
      | generate handle => exact .generate made handle

theorem course_like
    (grows : ∀ marks marks' mark, M marks marks' → M (marks ++ [mark]) (marks' ++ [mark]))
    (depth : Nat) (p : Pattern D K H) (datum : D) (branch branch' : Branch D)
    (like : branch.Like M branch') :
    Alike (Branch.Like M) (p.course host config depth datum branch)
      (p.course host config depth datum branch') := by
  induction depth generalizing p datum branch branch' with
  | zero => exact .pending
  | succ depth ih => exact handsOn_self grows ih p datum like

theorem handsOn_unmarked
    (made : ∀ p datum branch branch', branch.SameCaptures branch' →
      Alike Branch.SameCaptures (expand p datum branch) (expand p datum branch'))
    (p : Pattern D K H) : HandsOn host config expand (fun _ _ => True) p p.unmarked := by
  have each {items : List (Pattern D K H)}
      (every : ∀ q ∈ items, HandsOn host config expand (fun _ _ => True) q q.unmarked) :
      List.Forall₂ (HandsOn host config expand fun _ _ => True) items (unmarkedAll items) := by
    rw [unmarkedAll_eq_map, List.forall₂_map_right_iff]
    exact List.forall₂_same.mpr every
  induction p using TreeLike.induction_children with
  | step p ih =>
      cases p with
      | mark =>
          intro datum branch branch' like
          simp only [courseBy, unmarked]
          exact .pure ⟨like.1, trivial⟩
      | node kind items => exact .node kind (each ih)
      | contents items => exact .contents (each ih)
      | and left right => exact .and (ih left (.head _)) (ih right (.tail _ (.head _)))
      | or left right => exact .or (ih left (.head _)) (ih right (.tail _ (.head _)))
      | window items => exact .window (each ih)
      | _ => exact handsOn_self (fun _ _ _ _ => trivial) made _

end Pattern

variable [TreeLike D K] [BEq D] [BEq K] {host : Host D K H} {config : MatchConfig}

theorem workCourse_like {M : List D → List D → Prop}
    (grows : ∀ marks marks' mark, M marks marks' → M (marks ++ [mark]) (marks' ++ [mark]))
    (depth : Nat) (work : List (Task D K H)) {branch branch' : Branch D}
    (like : branch.Like M branch') :
    Alike (Branch.Like M) (workCourse host depth config work branch)
      (workCourse host depth config work branch') := by
  induction work generalizing branch branch' with
  | nil => exact .pure like
  | cons task work ih =>
      refine Alike.bind ?_ fun _ _ between => ih between
      rcases task with ⟨datum, goal⟩
      cases goal with
      | pattern p => exact Pattern.course_like grows (depth + 1) p datum branch branch' like
      | path steps step => exact Pattern.followBy_like (steps.drop step) step datum like

def Enumerator.onBranch (e : Enumerator D K H) (config : MatchConfig) (frame : Frame D K H)
    (progress : Progress) : Enumerator D K H :=
  { e with config, frame, choices := [], progress }

def Frame.Agree (host : Host D K H) (config : MatchConfig) (R : Branch D → Branch D → Prop)
    (frame frame' : Frame D K H) : Prop :=
  ∀ (e e' : Enumerator D K H) (progress : Progress),
    Enumerator.Agree host (fun _ => true) R (e.onBranch config frame progress)
      (e'.onBranch config frame' progress)

theorem Frame.agree_of_alike {R : Branch D → Branch D → Prop} {frame frame' : Frame D K H}
    (work : ∀ depth, Alike R (frame.course host depth config) (frame'.course host depth config)) :
    frame.Agree host config R frame' := by
  intro e e' progress
  refine Enumerator.agree_of_alike fun depth => ?_
  cases progress with
  | searching =>
      simp only [Enumerator.onBranch, Enumerator.course, Choice.courses]
      exact (work depth).append .done
  | yielded | exhausted =>
      simp only [Enumerator.onBranch, Enumerator.course, Choice.courses]
      exact .done

theorem Frame.agree_path {goal : Goal D K H} {steps : List (Pattern D K H)}
    (path : (∃ step, goal = .path steps step) ∨ goal = .pattern (.path steps))
    (captures : Env D) (datum : D) (marks marks' : List D) :
    Frame.Agree host config (Branch.Like fun final final' => final = marks ∧ final' = marks')
      ⟨captures, [⟨datum, goal⟩], marks⟩ ⟨captures, [⟨datum, goal⟩], marks'⟩ := by
  refine Frame.agree_of_alike fun depth => Alike.bind ?_ fun _ _ between => .pure between
  have like : Branch.Like (fun final final' => final = marks ∧ final' = marks')
      ⟨captures, marks⟩ ⟨captures, marks'⟩ := ⟨rfl, rfl, rfl⟩
  rcases path with ⟨step, rfl⟩ | rfl
  · exact Pattern.followBy_like (steps.drop step) step datum like
  · simp only [Task.course, Pattern.course, Pattern.courseBy]
    exact Pattern.followBy_like steps 0 datum like

/-- On two branches that differ only in the marks, a search has the same solutions and errors and
adds the same marks. A path adds none. So a mark that is not inside a path may as well be a
wildcard. -/
theorem marks_scoped (host : Host D K H) (config : MatchConfig) :
    (∀ (captures : Env D) (work : List (Task D K H)) (marks marks' : List D),
      Frame.Agree host config
        (Branch.Like fun final final' => ∃ added, final = marks ++ added ∧ final' = marks' ++ added)
        ⟨captures, work, marks⟩ ⟨captures, work, marks'⟩) ∧
    (∀ (captures : Env D) (datum : D) (steps : List (Pattern D K H)) (step : Nat)
        (marks marks' : List D),
      let ends := Branch.Like fun final final' => final = marks ∧ final' = marks'
      Frame.Agree host config ends ⟨captures, [⟨datum, .path steps step⟩], marks⟩
          ⟨captures, [⟨datum, .path steps step⟩], marks'⟩ ∧
        Frame.Agree host config ends ⟨captures, [⟨datum, .pattern (.path steps)⟩], marks⟩
          ⟨captures, [⟨datum, .pattern (.path steps)⟩], marks'⟩) ∧
    ∀ (datum : D) (p : Pattern D K H),
      Enumerator.Agree host (fun _ => true) Branch.SameCaptures
        (findWith datum p config) (findWith datum p.unmarked config) := by
  refine ⟨?_, ?_, ?_⟩
  · intro captures work marks marks'
    refine Frame.agree_of_alike fun depth => ?_
    refine workCourse_like ?_ depth work ⟨rfl, [], (List.append_nil _).symm, (List.append_nil _).symm⟩
    rintro _ _ mark ⟨added, rfl, rfl⟩
    exact ⟨added ++ [mark], List.append_assoc _ _ _, List.append_assoc _ _ _⟩
  · intro captures datum steps step marks marks'
    exact ⟨Frame.agree_path (.inl ⟨step, rfl⟩) captures datum marks marks',
      Frame.agree_path (.inr rfl) captures datum marks marks'⟩
  · intro datum p
    refine Enumerator.agree_of_alike fun depth => ?_
    rw [course_findWith, course_findWith]
    exact Pattern.handsOn_unmarked (Pattern.course_like (fun _ _ _ _ => trivial) depth) p datum
      ⟨rfl, trivial⟩

end TreeQuery
