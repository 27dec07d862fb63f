import TreeQuery.Proofs.Course.Output
import TreeQuery.Proofs.Datum.Windows
import TreeQuery.Proofs.Enumerator.Termination
import TreeQuery.Proofs.Pattern.Context

/-! How a step of a path puts its marks into solutions. The path goes on at the marks in order, whether
they come with one solution or with many, so only their sequence can be seen. -/

namespace TreeQuery

open Course (Below)

variable {D K H : Type}

namespace Course

variable {E A B : Type}

theorem filter_of_output? {visible : E → Bool} {c : Course E A} {output : Output E A}
    (known : c.output? = some output) (hidden : output.events.filter visible = []) :
    c.filter visible = concat (output.items.map pure) := by
  induction c generalizing output with
  | done =>
      cases known
      rfl
  | failed error => cases known
  | pending => cases known
  | event e rest ih =>
      rw [output?, Option.map_eq_some_iff] at known
      rcases known with ⟨later, found, rfl⟩
      have unseen := List.filter_eq_nil_iff.mp hidden e List.mem_cons_self
      rw [filter, if_neg unseen, ih found]
      exact List.filter_eq_nil_iff.mpr fun e' member =>
        List.filter_eq_nil_iff.mp hidden e' (List.mem_cons_of_mem e member)
  | item a rest ih =>
      rw [output?, Option.map_eq_some_iff] at known
      rcases known with ⟨later, found, rfl⟩
      rw [filter, ih found hidden]
      rfl

end Course

namespace Pattern

theorem bind_leaveStep (config : MatchConfig) (step remaining : Nat) (marks : List D)
    (next : D → Branch D → Course (Call D H) (Branch D)) {captures : Env D}
    {solved : List (Branch D)} (each : ∀ b ∈ solved, b.captures = captures ∧ b.marks ≠ []) :
    (Course.concat (solved.map Course.pure)).bind (leaveStep config step remaining marks next) =
      .concat ((solved.flatMap Branch.marks).map fun mark => next mark ⟨captures, marks⟩) := by
  have goes (b : Branch D) (member : b ∈ solved) :
      leaveStep config step remaining marks next b =
        .concat (b.marks.map fun mark => next mark ⟨captures, marks⟩) := by
    rcases each b member with ⟨rfl, marked⟩
    rw [leaveStep, if_neg (by rwa [List.isEmpty_iff])]
  calc
    _ = .concat (solved.map fun b => leaveStep config step remaining marks next b) := by
      simp only [Course.concat_bind, Course.pure_bind]
    _ = .concat (solved.map fun b => .concat (b.marks.map fun mark => next mark ⟨captures, marks⟩)) :=
      congrArg _ (List.map_congr_left goes)
    _ = _ := (Course.concat_flatMap solved Branch.marks _).symm

end Pattern

variable [TreeLike D K] [BEq D] [BEq K] {host : Host D K H} {visible : Call D H → Bool}

namespace Enumerator

/-- The enumeration has these solutions, and then it ends without an error. No call that it makes is
visible; if none is visible at all, this asks nothing of the calls. -/
def Solves (host : Host D K H) (visible : Call D H → Bool) (e : Enumerator D K H)
    (solved : List (Branch D)) : Prop :=
  ∃ fuel replies, e.advances host fuel (solved.length + 1) = some replies ∧
    replies.map Reply.solved = solved.map (fun branch => .ok (some branch)) ++ [.ok none] ∧
    (replies.flatMap Reply.calls).filter visible = []

theorem Solves.output? {e : Enumerator D K H} {solved : List (Branch D)}
    (solves : e.Solves host visible solved) :
    ∃ depth calls, (e.course host depth).output? = some ⟨solved, calls⟩ ∧
      calls.filter visible = [] := by
  rcases solves with ⟨fuel, replies, returned, answered, hidden⟩
  rcases answers_of_advances returned with ⟨answers, length⟩
  rcases answers.given with ⟨depth, gives⟩
  rw [Course.Gives, length, answered] at gives
  exact ⟨depth, _, Course.output?_of_answers gives.1 gives.2, hidden⟩

def following (e : Enumerator D K H) (config : MatchConfig) (captures : Env D) (datum : D)
    (steps : List (Pattern D K H)) (work : List (Task D K H)) (marks : List D) : Enumerator D K H :=
  { e with
    config, frame := ⟨captures, .ofPattern datum (.path steps) :: work, marks⟩, progress := .searching }

variable {config : MatchConfig} {captures captures' : Env D} {datum : D}

theorem course_following {s : Pattern D K H} {solved : List (Branch D)} {depth : Nat}
    {calls : List (Call D H)}
    (known : ((seeded datum s captures config).course host depth).output? = some ⟨solved, calls⟩)
    (hidden : calls.filter visible = [])
    (each : ∀ b ∈ solved, b.captures = captures' ∧ b.marks ≠ []) (e : Enumerator D K H)
    (rest : List (Pattern D K H)) (work : List (Task D K H)) (marks : List D) :
    ((e.following config captures datum (s :: rest) work marks).course host depth).filter visible =
      (Course.concat ((solved.flatMap Branch.marks).map fun mark =>
        (Pattern.followBy host config (Pattern.course host config depth) rest 1 mark
          ⟨captures', marks⟩).filter visible)).bind
        (fun between => (workCourse host depth config work between).filter visible) ++
      (Choice.courses host depth config e.choices).filter visible := by
  rw [course_seeded, Pattern.course] at known
  simp only [following, course, Frame.course, Frame.branch, workCourse, Task.course, Task.ofPattern,
    Pattern.course, Pattern.courseBy, Pattern.followBy, Course.filter_append, Course.filter_bind,
    Pattern.filter_leaveStep]
  rw [Course.filter_of_output? known hidden, Pattern.bind_leaveStep config 0 _ marks _ each]

/-- The step has these solutions on the datum. They have the given bindings, and each marks something. -/
def Marks (host : Host D K H) (visible : Call D H → Bool) (config : MatchConfig) (s : Pattern D K H)
    (datum : D) (captures captures' : Env D) (solved : List (Branch D)) : Prop :=
  (∃ depth calls,
    ((seeded datum s captures config).course host depth).output? = some ⟨solved, calls⟩ ∧
      calls.filter visible = []) ∧
    ∀ b ∈ solved, b.captures = captures' ∧ b.marks ≠ []

theorem leads_following {s s' : Pattern D K H} {solved solved' : List (Branch D)}
    (step : Marks host visible config s datum captures captures' solved)
    (step' : Marks host visible config s' datum captures captures' solved')
    (same : solved.flatMap Branch.marks = solved'.flatMap Branch.marks) (e : Enumerator D K H)
    (rest : List (Pattern D K H)) (work : List (Task D K H)) (marks : List D) :
    Leads host visible (fun branch branch' => branch = branch')
      (e.following config captures datum (s :: rest) work marks)
      (e.following config captures datum (s' :: rest) work marks) := by
  rcases step with ⟨⟨depth₁, calls, known, hidden⟩, each⟩
  rcases step' with ⟨⟨depth₂, calls', known', hidden'⟩, each'⟩
  intro depth
  refine ⟨depth + depth₁ + depth₂, _, .refl (fun _ => rfl) _, ?_⟩
  have here := Course.output?_mono (((seeded datum s captures config).course_grows).of_le
    (show depth₁ ≤ depth + depth₁ + depth₂ by omega)) known
  have here' := Course.output?_mono (((seeded datum s' captures config).course_grows).of_le
    (show depth₂ ≤ depth + depth₁ + depth₂ by omega)) known'
  rw [course_following here' hidden' each', ← same, ← course_following here hidden each]
  exact ((course_grows _).of_le (by omega)).filter visible

theorem Marks.agree {s s' : Pattern D K H} {solved solved' : List (Branch D)}
    (step : Marks host visible config s datum captures captures' solved)
    (step' : Marks host visible config s' datum captures captures' solved')
    (same : solved.flatMap Branch.marks = solved'.flatMap Branch.marks) (e : Enumerator D K H)
    (rest : List (Pattern D K H)) (work : List (Task D K H)) (marks : List D) :
    Agree host visible (fun branch branch' => branch = branch')
      (e.following config captures datum (s :: rest) work marks)
      (e.following config captures datum (s' :: rest) work marks) :=
  agree_of_leads (leads_following step step' same e rest work marks)
    (leads_following step' step same.symm e rest work marks)

section Children

variable {expand : Pattern D K H → D → Branch D → Course (Call D H) (Branch D)}

theorem threadBy_marks (data : List D) (branch : Branch D) :
    Pattern.threadBy host config expand (List.replicate data.length .mark) data branch =
      .pure ⟨branch.captures, branch.marks ++ data⟩ := by
  induction data generalizing branch with
  | nil =>
      simp only [List.length_nil, List.replicate_zero, Pattern.threadBy, List.append_nil]
  | cons datum data ih =>
      rw [List.length_cons, List.replicate_succ, Pattern.threadBy, Pattern.courseBy, Course.pure_bind,
        ih, List.append_assoc]
      rfl

theorem marks_contents (visible : Call D H → Bool) (config : MatchConfig) (captures : Env D)
    (some_child : 0 < TreeLike.arity datum) :
    Marks host visible config (.contents (List.replicate (TreeLike.arity datum) .mark)) datum captures
      captures [⟨captures, TreeLike.children datum⟩] := by
  refine ⟨⟨0, [], ?_, rfl⟩, ?_⟩
  · rw [course_seeded, Pattern.course, Pattern.courseBy, List.length_replicate, TreeLike.arity,
      if_pos (beq_self_eq_true _), threadBy_marks]
    rfl
  · intro b member
    rw [List.mem_singleton.mp member]
    exact ⟨rfl, List.ne_nil_of_length_pos some_child⟩

theorem marks_window (visible : Call D H → Bool) (config : MatchConfig) (captures : Env D) :
    Marks host visible config (.window [.mark]) datum captures captures
      ((TreeLike.children datum).map fun child => ⟨captures, [child]⟩) := by
  refine ⟨⟨0, [], ?_, rfl⟩, ?_⟩
  · rw [course_seeded, Pattern.course, Pattern.courseBy, List.length_singleton, slices_one,
      List.map_map, ← Course.output?_concat_pure, List.map_map]
    refine congrArg _ (congrArg _ (List.map_congr_left fun child _ => ?_))
    exact threadBy_marks [child] ⟨captures, []⟩
  · intro b member
    rcases List.mem_map.mp member with ⟨child, _, rfl⟩
    exact ⟨rfl, List.cons_ne_nil child []⟩

end Children

end Enumerator

/-- Two steps on a datum are interchangeable at the beginning of a path if the enumerations of both end
without an error and without visible calls, all their solutions have the same bindings and mark
something, and the marks are the same sequence. So a step that marks all children at once may be
replaced by one that marks each of them in its turn. -/
theorem path_grouping (host : Host D K H) (visible : Call D H → Bool) (config : MatchConfig)
    (e : Enumerator D K H) (rest : List (Pattern D K H)) (work : List (Task D K H)) (marks : List D) :
    (∀ (s s' : Pattern D K H) (datum : D) (captures captures' : Env D) (solved solved' : List (Branch D)),
      (Enumerator.seeded datum s captures config).Solves host visible solved →
      (Enumerator.seeded datum s' captures config).Solves host visible solved' →
      (∀ b ∈ solved ++ solved', b.captures = captures' ∧ b.marks ≠ []) →
      solved.flatMap Branch.marks = solved'.flatMap Branch.marks →
      Enumerator.Agree host visible (fun branch branch' => branch = branch')
        (e.following config captures datum (s :: rest) work marks)
        (e.following config captures datum (s' :: rest) work marks)) ∧
    ∀ (datum : D) (captures : Env D), 0 < TreeLike.arity datum →
      Enumerator.Agree host visible (fun branch branch' => branch = branch')
        (e.following config captures datum
          (.contents (List.replicate (TreeLike.arity datum) .mark) :: rest) work marks)
        (e.following config captures datum (.window [.mark] :: rest) work marks) := by
  constructor
  · intro s s' datum captures captures' solved solved' solves solves' each same
    have step : Enumerator.Marks host visible config s datum captures captures' solved :=
      ⟨solves.output?, fun b member => each b (List.mem_append_left solved' member)⟩
    have step' : Enumerator.Marks host visible config s' datum captures captures' solved' :=
      ⟨solves'.output?, fun b member => each b (List.mem_append_right solved member)⟩
    exact step.agree step' same e rest work marks
  · intro datum captures some_child
    refine (Enumerator.marks_contents visible config captures some_child).agree
      (Enumerator.marks_window visible config captures) ?_ e rest work marks
    rw [List.flatMap_map, List.flatMap_singleton']
    exact List.flatMap_singleton _ _

theorem path_grouping_pair :
    let pair : Tree := .list [.int 1, .sym "a"]
    let single : Pattern Tree String Unit := .contents [.mark, .mark]
    let apart : Pattern Tree String Unit :=
      .and (.test ()) (.or (.contents [.mark, .wild]) (.contents [.wild, .mark]))
    let e := findWith pair apart {}
    let start (s : Pattern Tree String Unit) := e.following {} .empty pair [s, .capture "x"] [] []
    (Enumerator.seeded pair apart .empty {}).Solves markingHost (fun _ => false)
        [⟨.empty, [.int 1]⟩, ⟨.empty, [.sym "a"]⟩] ∧
      (Enumerator.seeded pair single .empty {}).Solves markingHost (fun _ => false)
        [⟨.empty, [.int 1, .sym "a"]⟩] ∧
      Enumerator.Agree markingHost (fun _ => false) (fun branch branch' => branch = branch')
        (start apart) (start single) ∧
      Enumerator.Agree markingHost (fun _ => true) (fun branch branch' => branch = branch')
        (start single) (start (.window [.mark])) ∧
      ∃ replies, (start single).advances markingHost 40 3 = some replies ∧
        replies.map Reply.answer =
          [.ok (some ⟨[("x", .int 1)]⟩), .ok (some ⟨[("x", .sym "a")]⟩), .ok none] := by
  intro pair single apart e at'
  have solves : (Enumerator.seeded pair apart .empty {}).Solves markingHost (fun _ => false)
      [⟨.empty, [.int 1]⟩, ⟨.empty, [.sym "a"]⟩] := ⟨40, _, rfl, rfl, rfl⟩
  have solves' : (Enumerator.seeded pair single .empty {}).Solves markingHost (fun _ => false)
      [⟨.empty, [.int 1, .sym "a"]⟩] := ⟨40, _, rfl, rfl, rfl⟩
  refine ⟨solves, solves', ?_, ?_, _, rfl, rfl⟩
  · apply (path_grouping markingHost (fun _ => false) {} e [.capture "x"] [] []).1 apart single pair
      .empty .empty _ _ solves solves' ?_ rfl
    simp
  · exact (path_grouping markingHost (fun _ => true) {} e [.capture "x"] [] []).2 pair .empty
      (by decide)

end TreeQuery
