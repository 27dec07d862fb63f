import Mathlib.Logic.Relation
import Mathlib.Order.WellFounded
import TreeQuery.Pattern.Kind
import TreeQuery.Proofs.Course.Closed
import TreeQuery.Proofs.Course.Depth

/-! Patterns that cannot generate patterns for ever. Along the patterns that stem from one another,
down to subpatterns and on to generated ones, each course closes. -/

namespace TreeQuery

open Course (Below Closed Closes Grows)

variable {D K H : Type}

namespace Pattern

/-- The first pattern is a subpattern of the second, or the host generates it for the second. -/
inductive Stems (host : Host D K H) : Pattern D K H → Pattern D K H → Prop where
  | child {q p : Pattern D K H} (member : q ∈ p.children) : Stems host q p
  | generated {handle : H} {env : Env D} {q : Pattern D K H}
      (made : host.generate handle env = .ok q) : Stems host q (.generate handle)

def Descends (host : Host D K H) : Pattern D K H → Pattern D K H → Prop :=
  Relation.ReflTransGen (Stems host)

/-- No infinite sequence of patterns that stem from one another begins with the pattern. -/
def Founded (host : Host D K H) (p : Pattern D K H) : Prop := Acc (Stems host) p

def Plain (p : Pattern D K H) : Prop := ∀ handle, generate handle ∉ TreeLike.nodes p

theorem Plain.child {p q : Pattern D K H} (plain : p.Plain) (member : q ∈ p.children) : q.Plain := by
  intro handle present
  apply plain handle
  rw [TreeLike.nodes_eq]
  exact List.mem_cons_of_mem _ (List.mem_flatMap.mpr ⟨q, member, present⟩)

theorem Plain.founded (host : Host D K H) {p : Pattern D K H} (plain : p.Plain) : p.Founded host := by
  induction size : p.size using Nat.strongRecOn generalizing p with
  | ind n ih =>
      constructor
      intro q stems
      cases stems with
      | child member =>
          have smaller : q.size < p.size := TreeLike.size_lt_of_mem member
          exact ih q.size (size ▸ smaller) (plain.child member) rfl
      | @generated handle env q made =>
          have present : generate handle ∈ TreeLike.nodes (generate handle : Pattern D K H) := by
            rw [TreeLike.nodes_eq]
            exact List.mem_cons_self
          exact absurd present (plain handle)

theorem founded_of_rank {host : Host D K H} {R : Type*} [LT R] [WellFoundedLT R]
    (rank : Pattern D K H → R) {root : Pattern D K H}
    (falls : ∀ p q, Descends host p root → Stems host q p → rank q < rank p) :
    root.Founded host := by
  have each (r : R) : ∀ p, rank p = r → Descends host p root → p.Founded host := by
    induction r using WellFoundedLT.induction with
    | ind r ih =>
        rintro p rfl descends
        constructor
        intro q stems
        exact ih (rank q) (falls p q descends stems) q rfl (.head stems descends)
  exact each (rank root) root rfl .refl

theorem guardCourse_closed (branch : Branch D) (holds : Bool) :
    Closed (guardCourse branch holds : Course (Call D H) (Branch D)) := by
  cases holds with
  | false => exact .done
  | true => exact .pure branch

variable [TreeLike D K] [BEq D] [BEq K] {host : Host D K H} {config : MatchConfig}

theorem courseBy_grows (p : Pattern D K H) (datum : D) (branch : Branch D) :
    Grows fun depth => courseBy host config (course host config depth) p datum branch :=
  fun depth => courseBy_mono (course_below_succ depth) p datum branch

theorem threadBy_grows (ps : List (Pattern D K H)) (data : List D) (branch : Branch D) :
    Grows fun depth => threadBy host config (course host config depth) ps data branch :=
  fun depth => threadBy_mono (course_below_succ depth) ps data branch

theorem followBy_grows (ps : List (Pattern D K H)) (step : Nat) (datum : D) (branch : Branch D) :
    Grows fun depth => followBy host config (course host config depth) ps step datum branch :=
  fun depth => followBy_mono (course_below_succ depth) ps step datum branch

theorem leaveStep_grows (ps : List (Pattern D K H)) (step : Nat) (marks : List D)
    (solved : Branch D) :
    Grows fun depth => leaveStep config step ps.length marks
      (followBy host config (course host config depth) ps (step + 1)) solved :=
  fun depth => leaveStep_mono step ps.length marks (fun mark branch =>
    followBy_grows ps (step + 1) mark branch depth) solved

def Bounded (host : Host D K H) (config : MatchConfig) (p : Pattern D K H) : Prop :=
  ∀ datum branch, Closes fun depth => courseBy host config (course host config depth) p datum branch

theorem threadBy_closes {ps : List (Pattern D K H)} (each : ∀ p ∈ ps, p.Bounded host config)
    (data : List D) (branch : Branch D) :
    Closes fun depth => threadBy host config (course host config depth) ps data branch := by
  induction ps generalizing data branch with
  | nil =>
      simp only [threadBy]
      exact .const (.pure branch)
  | cons p ps ih =>
      cases data with
      | nil =>
          simp only [threadBy]
          exact .const (.pure branch)
      | cons datum data =>
          have rest := ih fun q member => each q (List.mem_cons_of_mem p member)
          have own := each p List.mem_cons_self datum branch
          simp only [threadBy]
          exact own.bind (rest data) (courseBy_grows p datum branch) (threadBy_grows ps data)

theorem leaveStep_closes {ps : List (Pattern D K H)} {step : Nat}
    (rest : ∀ datum branch, Closes fun depth =>
      followBy host config (course host config depth) ps (step + 1) datum branch)
    (marks : List D) (solved : Branch D) :
    Closes fun depth => leaveStep config step ps.length marks
      (followBy host config (course host config depth) ps (step + 1)) solved := by
  unfold leaveStep
  split
  · split
    · exact .const (.failed _)
    · exact .const (.pure _)
  · exact .concat solved.marks (fun mark _ => rest mark _) fun mark =>
      followBy_grows ps (step + 1) mark _

theorem followBy_closes {ps : List (Pattern D K H)} (each : ∀ p ∈ ps, p.Bounded host config)
    (step : Nat) (datum : D) (branch : Branch D) :
    Closes fun depth => followBy host config (course host config depth) ps step datum branch := by
  induction ps generalizing step datum branch with
  | nil =>
      simp only [followBy]
      exact .const (.pure branch)
  | cons p ps ih =>
      have rest := ih fun q member => each q (List.mem_cons_of_mem p member)
      have own := each p List.mem_cons_self datum ⟨branch.captures, []⟩
      simp only [followBy]
      exact own.bind (leaveStep_closes (rest (step + 1)) branch.marks)
        (courseBy_grows p datum _) (leaveStep_grows ps step branch.marks)

theorem bounded_of_stems {p : Pattern D K H} (each : ∀ q, Stems host q p → q.Bounded host config) :
    p.Bounded host config := by
  have parts : ∀ q ∈ p.children, q.Bounded host config := fun q member => each q (.child member)
  intro datum branch
  cases p with
  | wild | capture name | mark =>
      simp only [courseBy]
      exact .const (.pure _)
  | atom value | ofKind kind =>
      simp only [courseBy]
      exact .const (guardCourse_closed branch _)
  | template name =>
      simp only [courseBy]
      cases branch.earliest? name with
      | some bound => exact .const (guardCourse_closed branch _)
      | none =>
          cases config.strictTemplates with
          | true => exact .const (.failed _)
          | false => exact .const .done
  | node kind items =>
      simp only [courseBy]
      split
      · exact threadBy_closes parts (TreeLike.children datum) branch
      · exact .const .done
  | contents items =>
      simp only [courseBy]
      split
      · exact threadBy_closes parts (TreeLike.children datum) branch
      · exact .const .done
  | and left right =>
      have one := parts left List.mem_cons_self
      have other := parts right (List.mem_cons_of_mem _ List.mem_cons_self)
      simp only [courseBy]
      exact (one datum branch).bind (other datum) (courseBy_grows left datum branch)
        (courseBy_grows right datum)
  | or left right =>
      have one := parts left List.mem_cons_self
      have other := parts right (List.mem_cons_of_mem _ List.mem_cons_self)
      simp only [courseBy]
      exact (one datum branch).append (other datum branch) (courseBy_grows left datum branch)
        (courseBy_grows right datum branch)
  | path steps =>
      simp only [courseBy]
      exact followBy_closes parts 0 datum branch
  | window items =>
      simp only [courseBy]
      exact .concat _ (fun run _ => threadBy_closes parts run branch) fun run =>
        threadBy_grows items run branch
  | test handle =>
      simp only [courseBy]
      refine .event _ ?_
      cases host.test handle datum with
      | ok holds => exact .const (guardCourse_closed branch holds)
      | error error => exact .const (.failed error)
  | generate handle =>
      simp only [courseBy]
      refine .event _ ?_
      cases made : host.generate handle branch.captures with
      | ok q => exact .of_succ (each q (.generated made) datum branch)
      | error error => exact .const (.failed error)

theorem Founded.bounded {p : Pattern D K H} (founded : p.Founded host) : p.Bounded host config := by
  induction founded with
  | intro p _ ih => exact bounded_of_stems ih

end Pattern

end TreeQuery
