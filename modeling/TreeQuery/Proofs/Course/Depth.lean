import TreeQuery.Course.Matching
import TreeQuery.Proofs.Course.Order

/-! The course of a pattern grows with the depth to which generated patterns are followed: what a
smaller depth leaves open, a greater one may go on with. -/

namespace TreeQuery.Pattern

open Course (Below)

variable {D K H : Type} {config : MatchConfig}

theorem leaveStep_mono (step remaining : Nat) (marks : List D)
    {next next' : D → Branch D → Course (Call D H) (Branch D)}
    (later : ∀ mark branch, Below (next mark branch) (next' mark branch)) (solved : Branch D) :
    Below (leaveStep config step remaining marks next solved)
      (leaveStep config step remaining marks next' solved) := by
  unfold leaveStep
  split
  · exact .refl _
  · exact .concat _ fun mark => later mark _

variable [TreeLike D K] [BEq D] [BEq K] {host : Host D K H}
variable {expand expand' : Pattern D K H → D → Branch D → Course (Call D H) (Branch D)}

mutual

theorem courseBy_mono (more : ∀ p datum branch, Below (expand p datum branch) (expand' p datum branch)) :
    ∀ (p : Pattern D K H) (datum : D) (branch : Branch D),
      Below (courseBy host config expand p datum branch)
        (courseBy host config expand' p datum branch)
  | .wild, _, _ | .atom _, _, _ | .capture _, _, _ | .template _, _, _ | .ofKind _, _, _
  | .mark, _, _ | .test _, _, _ => by
      simp only [courseBy]
      exact .refl _
  | .node _ items, _, _ => by
      simp only [courseBy]
      split
      · exact threadBy_mono more items _ _
      · exact .done
  | .contents items, _, _ => by
      simp only [courseBy]
      split
      · exact threadBy_mono more items _ _
      · exact .done
  | .and left right, datum, branch => by
      simp only [courseBy]
      exact (courseBy_mono more left datum branch).bind (courseBy_mono more right datum)
  | .or left right, datum, branch => by
      simp only [courseBy]
      exact (courseBy_mono more left datum branch).append (courseBy_mono more right datum branch)
  | .path steps, datum, branch => by
      simp only [courseBy]
      exact followBy_mono more steps 0 datum branch
  | .window items, _, branch => by
      simp only [courseBy]
      exact .concat _ fun run => threadBy_mono more items run branch
  | .generate _, datum, branch => by
      simp only [courseBy]
      refine .event _ ?_
      split
      · exact more _ datum branch
      · exact .refl _

theorem threadBy_mono (more : ∀ p datum branch, Below (expand p datum branch) (expand' p datum branch)) :
    ∀ (ps : List (Pattern D K H)) (data : List D) (branch : Branch D),
      Below (threadBy host config expand ps data branch) (threadBy host config expand' ps data branch)
  | [], _, _ | _ :: _, [], _ => by
      simp only [threadBy]
      exact .refl _
  | p :: ps, datum :: data, branch => by
      simp only [threadBy]
      exact (courseBy_mono more p datum branch).bind (threadBy_mono more ps data)

theorem followBy_mono (more : ∀ p datum branch, Below (expand p datum branch) (expand' p datum branch)) :
    ∀ (ps : List (Pattern D K H)) (step : Nat) (datum : D) (branch : Branch D),
      Below (followBy host config expand ps step datum branch)
        (followBy host config expand' ps step datum branch)
  | [], _, _, _ => by
      simp only [followBy]
      exact .refl _
  | p :: ps, step, datum, branch => by
      simp only [followBy]
      exact (courseBy_mono more p datum _).bind
        (leaveStep_mono step ps.length branch.marks (followBy_mono more ps (step + 1)))

end

theorem course_below_succ (depth : Nat) (p : Pattern D K H) (datum : D) (branch : Branch D) :
    Below (course host config depth p datum branch) (course host config (depth + 1) p datum branch) := by
  induction depth generalizing p datum branch with
  | zero => exact .pending _
  | succ depth ih => exact courseBy_mono ih p datum branch

end TreeQuery.Pattern
