import TreeQuery.Config
import TreeQuery.Course.Basic
import TreeQuery.Datum.Basic
import TreeQuery.Host

/-! What it means for a pattern to match, by recursion on the pattern: the course of calls and
solutions from left to right and depth first. Nothing here rests on how the search is carried out. -/

namespace TreeQuery

structure Branch (D : Type) where
  captures : Env D
  marks : List D

namespace Branch

variable {D : Type}

def bind (branch : Branch D) (name : String) (datum : D) : Branch D :=
  ⟨⟨branch.captures.bindings ++ [(name, datum)]⟩, branch.marks⟩

def earliest? (branch : Branch D) (name : String) : Option D :=
  (branch.captures.bindings.find? fun binding => binding.1 == name).map Prod.snd

theorem bind_eq (branch : Branch D) (name : String) (datum : D) :
    branch.bind name datum = { branch with captures := branch.captures.bind name datum } := rfl

theorem earliest?_eq (branch : Branch D) (name : String) :
    branch.earliest? name = branch.captures.get? name :=
  (branch.captures.get?_eq_find? name).symm

end Branch

/-- The slices of `width` items. The start goes from `0` to the last one at which a slice fits. -/
def slices {α : Type} (width : Nat) (items : List α) : List (List α) :=
  if width ≤ items.length then
    (List.range (items.length - width + 1)).map fun start => items.extract start (start + width)
  else []

namespace Pattern

variable {D K H : Type}

def guardCourse (branch : Branch D) (holds : Bool) : Course (Call D H) (Branch D) :=
  if holds then .pure branch else .done

/-- How a path goes on from a solution of its step `step` when `remaining` steps follow and `next`
is their course: on each datum that the solution marks, or to the end of the path if it marks none.
The bindings are kept, and the marks are those from before the path. -/
def leaveStep (config : MatchConfig) (step remaining : Nat) (marks : List D)
    (next : D → Branch D → Course (Call D H) (Branch D)) (solved : Branch D) :
    Course (Call D H) (Branch D) :=
  if solved.marks.isEmpty then
    if config.strictPaths && 0 < remaining then .failed (.danglingPath step remaining)
    else .pure ⟨solved.captures, marks⟩
  else .concat (solved.marks.map fun mark => next mark ⟨solved.captures, marks⟩)

variable [TreeLike D K] [BEq D] [BEq K] (host : Host D K H) (config : MatchConfig)

mutual

/-- The course of a pattern on a datum from a branch on; `expand` gives the course of a pattern
that the host generates. -/
def courseBy (expand : Pattern D K H → D → Branch D → Course (Call D H) (Branch D)) :
    Pattern D K H → D → Branch D → Course (Call D H) (Branch D)
  | .wild, _, branch => .pure branch
  | .atom value, datum, branch => guardCourse branch (datum == value)
  | .capture name, datum, branch => .pure (branch.bind name datum)
  | .template name, datum, branch =>
    match branch.earliest? name with
    | some bound => guardCourse branch (bound == datum)
    | none => if config.strictTemplates then .failed (.unboundTemplate name) else .done
  | .node kind items, datum, branch =>
    if TreeLike.kind datum == kind && (TreeLike.children datum).length == items.length then
      threadBy expand items (TreeLike.children datum) branch
    else .done
  | .contents items, datum, branch =>
    if (TreeLike.children datum).length == items.length then
      threadBy expand items (TreeLike.children datum) branch
    else .done
  | .ofKind kind, datum, branch => guardCourse branch (TreeLike.kind datum == kind)
  | .and left right, datum, branch =>
    (courseBy expand left datum branch).bind (courseBy expand right datum)
  | .or left right, datum, branch =>
    courseBy expand left datum branch ++ courseBy expand right datum branch
  | .mark, datum, branch => .pure { branch with marks := branch.marks ++ [datum] }
  | .path steps, datum, branch => followBy expand steps 0 datum branch
  | .window items, datum, branch =>
    .concat ((slices items.length (TreeLike.children datum)).map (threadBy expand items · branch))
  | .test handle, datum, branch =>
    .event (.test handle datum)
      (match host.test handle datum with
      | .ok holds => guardCourse branch holds
      | .error error => .failed error)
  | .generate handle, datum, branch =>
    .event (.generate handle branch.captures)
      (match host.generate handle branch.captures with
      | .ok pattern => expand pattern datum branch
      | .error error => .failed error)

def threadBy (expand : Pattern D K H → D → Branch D → Course (Call D H) (Branch D)) :
    List (Pattern D K H) → List D → Branch D → Course (Call D H) (Branch D)
  | p :: ps, datum :: data, branch =>
    (courseBy expand p datum branch).bind (threadBy expand ps data)
  | _, _, branch => .pure branch

def followBy (expand : Pattern D K H → D → Branch D → Course (Call D H) (Branch D)) :
    List (Pattern D K H) → Nat → D → Branch D → Course (Call D H) (Branch D)
  | [], _, _, branch => .pure branch
  | p :: ps, step, datum, branch =>
    (courseBy expand p datum ⟨branch.captures, []⟩).bind
      (leaveStep config step ps.length branch.marks (followBy expand ps (step + 1)))

end

/-- The course of a pattern as far as it shows when at most `depth` patterns, this one included,
may each be generated by the one before. -/
def course : Nat → Pattern D K H → D → Branch D → Course (Call D H) (Branch D)
  | 0 => fun _ _ _ => .pending
  | depth + 1 => courseBy host config (course depth)

end Pattern

end TreeQuery
