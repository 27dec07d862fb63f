import TreeQuery.Proofs.Datum.Windows
import TreeQuery.Proofs.Enumerator.Course
import TreeQuery.Proofs.Enumerator.Run

/-! A step of the machine keeps the course ahead: the calls that it makes are the next events, and
what is left is the course of the next state. Only a generated pattern costs one level of depth. -/

namespace TreeQuery

open Course (Below Grows Trails)

variable {D K H : Type} [TreeLike D K] [BEq D] [BEq K] {host : Host D K H}
variable {config : MatchConfig} {depth : Nat}

namespace Outcome

theorem course_one (frame : Frame D K H) (captures : Env D) :
    (Outcome.proceed frame []).course host depth config captures =
      frame.course host depth config :=
  Course.append_done _

theorem course_pure (frame : Frame D K H) (captures : Env D) :
    (Course.pure frame.branch).bind (workCourse host depth config frame.work) =
      (Outcome.proceed frame []).course host depth config captures := by
  rw [Course.pure_bind, course_one]
  rfl

theorem course_ofBool (frame : Frame D K H) (holds : Bool) (captures : Env D) :
    (Pattern.guardCourse frame.branch holds).bind (workCourse host depth config frame.work) =
      (Outcome.ofBool frame holds).course host depth config captures := by
  cases holds with
  | false => rfl
  | true => exact course_pure frame captures

theorem course_ofFrames (frames : List (Frame D K H)) (captures : Env D) :
    (Outcome.ofFrames frames).course host depth config captures =
      .concat (frames.map (Frame.course host depth config)) := by
  cases frames <;> rfl

end Outcome

theorem workCourse_append (work more : List (Task D K H)) (branch : Branch D) :
    workCourse host depth config (work ++ more) branch =
      (workCourse host depth config work branch).bind (workCourse host depth config more) := by
  induction work generalizing branch with
  | nil => exact (Course.pure_bind branch _).symm
  | cons task work ih =>
      have later : workCourse host depth config (work ++ more) = fun branch =>
          (workCourse host depth config work branch).bind (workCourse host depth config more) :=
        funext ih
      rw [List.cons_append, workCourse, workCourse, later, Course.bind_assoc]

namespace Frame

theorem course_push (frame : Frame D K H) (tasks : List (Task D K H)) :
    (frame.push tasks).course host depth config =
      (workCourse host depth config tasks frame.branch).bind
        (workCourse host depth config frame.work) :=
  workCourse_append tasks frame.work frame.branch

theorem workCourse_single (datum : D) (pattern : Pattern D K H) (branch : Branch D) :
    workCourse host depth config [.ofPattern datum pattern] branch =
      pattern.course host config (depth + 1) datum branch :=
  Course.bind_pure _

theorem workCourse_zipWith (items : List (Pattern D K H)) (data : List D) (branch : Branch D) :
    workCourse host depth config (List.zipWith .ofPattern data items) branch =
      Pattern.threadBy host config (Pattern.course host config depth) items data branch := by
  induction items generalizing data branch with
  | nil => simp only [List.zipWith_nil_right, workCourse, Pattern.threadBy]
  | cons item items ih =>
      cases data with
      | nil => simp only [List.zipWith_nil_left, workCourse, Pattern.threadBy]
      | cons datum data =>
          have later : workCourse host depth config (List.zipWith .ofPattern data items) =
              Pattern.threadBy host config (Pattern.course host config depth) items data :=
            funext (ih data)
          rw [List.zipWith_cons_cons, workCourse, Pattern.threadBy, later]
          rfl

theorem course_pushPairs (frame : Frame D K H) (data : List D) (items : List (Pattern D K H)) :
    (frame.pushPairs data items).course host depth config =
      (Pattern.threadBy host config (Pattern.course host config depth) items data
        frame.branch).bind (workCourse host depth config frame.work) := by
  rw [pushPairs, course_push, workCourse_zipWith]

theorem course_matchChildren (frame : Frame D K H) (data : List D)
    (items : List (Pattern D K H)) (captures : Env D) :
    (if data.length == items.length then
        Pattern.threadBy host config (Pattern.course host config depth) items data frame.branch
      else .done).bind (workCourse host depth config frame.work) =
      (frame.matchChildren data items).course host depth config captures := by
  unfold matchChildren
  split
  · rw [Outcome.course_one, course_pushPairs]
  · rfl

theorem course_follow (frame : Frame D K H) (datum : D) (steps : List (Pattern D K H))
    (step : Nat) :
    (Pattern.followBy host config (Pattern.course host config depth) (steps.drop step) step datum
      frame.branch).bind (workCourse host depth config frame.work) =
      (frame.follow datum steps step).course host depth config frame.captures := by
  unfold follow
  cases here : steps[step]? with
  | none =>
      have ended : steps.drop step = [] :=
        List.drop_eq_nil_iff.mpr (List.getElem?_eq_none_iff.mp here)
      rw [ended, Pattern.followBy]
      exact Outcome.course_pure frame _
  | some pattern =>
      obtain ⟨bound, rfl⟩ := List.getElem?_eq_some_iff.mp here
      rw [List.drop_eq_getElem_cons bound, Pattern.followBy, Course.bind_assoc, List.length_drop]
      rfl

theorem course_apply (frame : Frame D K H) (datum : D) (pattern : Pattern D K H)
    (plain : ∀ handle, pattern ≠ .generate handle) :
    (pattern.course host config (depth + 1) datum frame.branch).bind
        (workCourse host depth config frame.work) =
      .events (Event.calls (frame.calls datum pattern))
        ((frame.apply host config datum pattern).course host depth config frame.captures) := by
  cases pattern with
  | wild => exact Outcome.course_pure frame frame.captures
  | atom value => exact Outcome.course_ofBool frame _ _
  | capture name =>
      exact Outcome.course_pure { frame with captures := frame.captures.bind name datum }
        frame.captures
  | template name =>
      simp only [Pattern.course, Pattern.courseBy, Branch.earliest?_eq, apply, branch]
      cases frame.captures.get? name with
      | some bound => exact Outcome.course_ofBool frame _ _
      | none => cases config.strictTemplates <;> rfl
  | node kind items =>
      simp only [Pattern.course, Pattern.courseBy, apply]
      cases TreeLike.kind datum == kind with
      | true => exact course_matchChildren frame _ items _
      | false => rfl
  | contents items => exact course_matchChildren frame _ items _
  | ofKind kind => exact Outcome.course_ofBool frame _ _
  | and left right =>
      have later : workCourse host depth config [.ofPattern datum right] =
          right.course host config (depth + 1) datum := funext (workCourse_single datum right)
      refine Eq.trans ?_ (Outcome.course_one _ frame.captures).symm
      rw [course_push, workCourse, later]
      rfl
  | or left right =>
      change ((left.course host config (depth + 1) datum frame.branch) ++
        (right.course host config (depth + 1) datum frame.branch)).bind _ = _ ++ (_ ++ .done)
      rw [Course.append_bind, Course.append_done, course_push, course_push, workCourse_single,
        workCourse_single]
  | mark => exact Outcome.course_pure { frame with marks := frame.marks ++ [datum] } frame.captures
  | path steps => exact course_follow frame datum steps 0
  | window items =>
      have each : Frame.course host depth config ∘ (frame.pushPairs · items) = fun run =>
          (Pattern.threadBy host config (Pattern.course host config depth) items run
            frame.branch).bind (workCourse host depth config frame.work) :=
        funext fun run => course_pushPairs frame run items
      simp only [apply, ← slices_eq_windows]
      rw [Outcome.course_ofFrames, List.map_map, each, ← Course.concat_bind]
      rfl
  | test handle =>
      change Course.event _ (Course.bind _ _) = Course.event _ _
      simp only [apply]
      cases host.test handle datum with
      | ok holds => exact congrArg _ (Outcome.course_ofBool frame holds _)
      | error error => rfl
  | generate handle => exact absurd rfl (plain handle)

/-- What a generator does shows one level deeper in its course. -/
theorem course_generate (frame : Frame D K H) (datum : D) (handle : H) :
    Trails 1
      (fun depth => ((Pattern.generate handle).course host config (depth + 1) datum
        frame.branch).bind (workCourse host depth config frame.work))
      (fun depth => .events (Event.calls (frame.calls datum (.generate handle)))
        ((frame.apply host config datum (.generate handle)).course host depth config
          frame.captures)) := by
  -- The course follows the generated pattern to one level less than the generator itself.
  cases made : host.generate handle frame.captures with
  | ok pattern =>
      have asked : (fun depth => ((Pattern.generate handle).course host config (depth + 1) datum
          frame.branch).bind (workCourse host depth config frame.work)) =
          fun depth => .events [.generate handle frame.captures]
            ((pattern.course host config depth datum frame.branch).bind
              (workCourse host depth config frame.work)) := by
        funext depth
        simp only [Pattern.course, Pattern.courseBy, branch, made]
        rfl
      have left : (fun depth => Course.events (Event.calls (frame.calls datum (.generate handle)))
          ((frame.apply host config datum (.generate handle)).course host depth config
            frame.captures)) =
          fun depth => .events [.generate handle frame.captures]
            ((pattern.course host config (depth + 1) datum frame.branch).bind
              (workCourse host depth config frame.work)) := by
        funext depth
        simp only [apply, made]
        rw [Outcome.course_one, course_push, workCourse_single]
        rfl
      have deeper : Trails 1 (fun depth => pattern.course host config depth datum frame.branch)
          fun depth => pattern.course host config (depth + 1) datum frame.branch :=
        .succ fun depth => Pattern.course_below_succ depth pattern datum frame.branch
      rw [asked, left]
      exact (deeper.bind fun branch => workCourse_grows frame.work branch).events _
  | error error =>
      apply Trails.of_eq _ _ 1
      · intro depth
        exact (Pattern.course_below_succ (depth + 1) _ datum frame.branch).bind
          fun branch => workCourse_grows frame.work branch depth
      · intro depth
        simp only [Pattern.course, Pattern.courseBy, branch, made, apply]
        rfl

theorem trails_apply (frame : Frame D K H) (datum : D) (pattern : Pattern D K H) :
    Trails 1
      (fun depth => (pattern.course host config (depth + 1) datum frame.branch).bind
        (workCourse host depth config frame.work))
      (fun depth => .events (Event.calls (frame.calls datum pattern))
        ((frame.apply host config datum pattern).course host depth config frame.captures)) := by
  by_cases generates : ∃ handle, pattern = .generate handle
  · rcases generates with ⟨handle, rfl⟩
    exact course_generate frame datum handle
  · apply Trails.of_eq _ _ 1
    · intro depth
      exact (Pattern.course_below_succ (depth + 1) pattern datum frame.branch).bind
        fun branch => workCourse_grows frame.work branch depth
    · intro depth
      apply course_apply
      intro handle same
      exact generates ⟨handle, same⟩

end Frame

namespace Task

theorem trails_perform (host : Host D K H) (config : MatchConfig) (frame : Frame D K H)
    (task : Task D K H) :
    Trails 1
      (fun depth => (task.course host depth config frame.branch).bind
        (workCourse host depth config frame.work))
      (fun depth => .events (Event.calls (frame.perform host config task).1)
        ((frame.perform host config task).2.course host depth config frame.captures)) := by
  obtain ⟨datum, goal⟩ := task
  cases goal with
  | pattern pattern => exact Frame.trails_apply frame datum pattern
  | path steps step =>
      apply Trails.of_eq _ (fun depth => Frame.course_follow frame datum steps step) 1
      intro depth
      exact (Task.course_grows ⟨datum, .path steps step⟩ frame.branch depth).bind
        fun branch => workCourse_grows frame.work branch depth

end Task

namespace Machine

theorem Turns.trails {e : Enumerator D K H} {work : List (Task D K H)}
    {calls : List (Event D K H)} {outcome : Outcome D K H}
    (turns : Turns host e work calls outcome) (waiting : List (Waiting D K H)) :
    Trails 1 (fun depth => Machine.course host depth ⟨e, .working, waiting⟩)
      (fun depth => .events (Event.calls calls) (Waiting.courses host depth waiting
        (outcome.course host depth e.config e.frame.captures ++
          Choice.courses host depth e.config e.choices))) := by
  rcases turns with ⟨task, first, performed⟩
  have begins := Task.trails_perform host e.config (e.drop work).frame task
  have grows : Grows fun depth => Choice.courses host depth e.config e.choices :=
    Choice.courses_grow e.config e.choices
  rw [performed] at begins
  intro depth
  have now := Waiting.courses_trails host waiting (begins.append grows) depth
  simp only [Course.events_then, Waiting.courses_events] at now
  simp only [Machine.course, Phase.course, Frame.course, first]
  exact now

theorem Idle.course {m : Machine D K H} (idle : m.Idle) (depth : Nat) :
    m.phase.course host depth m.active = .done := by
  rcases idle with spent | ⟨announce, retreating, none⟩
  · rw [spent]
    rfl
  · rw [retreating, Phase.course, none]
    simp only [Choice.courses]

theorem course_ask (depth : Nat) (e : Enumerator D K H) (waiting : List (Waiting D K H)) :
    (Machine.ask e waiting).course host depth =
      Waiting.courses host depth waiting (e.course host depth) :=
  congrArg (Waiting.courses host depth waiting) (Phase.course_ofProgress depth e)

theorem course_dangling {leg : Leg D K H} {config : MatchConfig} {solved : Branch D}
    {error : MatchError} (dangles : leg.dangling? config solved.marks = some error) (depth : Nat) :
    leg.course host depth config solved = .failed error := by
  unfold Leg.dangling? at dangles
  split at dangles
  · rename_i strict
    cases dangles
    simp only [Bool.and_eq_true, decide_eq_true_eq] at strict
    have more : 0 < leg.steps.length - (leg.step + 1) := Nat.sub_pos_of_lt strict.2
    simp only [Leg.course, Pattern.leaveStep, strict.1.1, strict.1.2, more, decide_true,
      Bool.and_self, if_true]
    rfl
  · cases dangles

theorem course_exits {leg : Leg D K H} {config : MatchConfig} (solved : Branch D)
    (leads : leg.dangling? config solved.marks = none) (depth : Nat) :
    leg.course host depth config solved =
      (leg.exits solved.captures solved.marks).1.course host depth config ++
        .concat ((leg.exits solved.captures solved.marks).2.map
          (Frame.course host depth config)) := by
  obtain ⟨captures, marks⟩ := solved
  cases marks with
  | nil =>
      have lenient : ¬ (config.strictPaths = true ∧ leg.step + 1 < leg.steps.length) := by
        intro strict
        simp [Leg.dangling?, strict] at leads
      have ends : (config.strictPaths && decide (0 < leg.steps.length - (leg.step + 1))) = false := by
        simpa [Nat.sub_pos_iff_lt] using lenient
      simp only [Leg.course, Pattern.leaveStep, List.isEmpty_nil, if_true, ends, Bool.false_eq_true,
        if_false, Leg.exits, List.map_nil, Course.concat, Course.append_done, Course.pure_bind]
      rfl
  | cons mark marks =>
      have exit (mark : D) : (leg.frame captures [leg.next mark]).course host depth config =
          (Pattern.followBy host config (Pattern.course host config depth)
            (leg.steps.drop (leg.step + 1)) (leg.step + 1) mark ⟨captures, leg.marks⟩).bind
            (workCourse host depth config leg.work) := rfl
      have branches : Frame.course host depth config ∘
          (fun mark => leg.frame captures [leg.next mark]) = fun mark =>
          (Pattern.followBy host config (Pattern.course host config depth)
            (leg.steps.drop (leg.step + 1)) (leg.step + 1) mark ⟨captures, leg.marks⟩).bind
            (workCourse host depth config leg.work) := funext exit
      simp only [Leg.course, Pattern.leaveStep, List.isEmpty_cons, Bool.false_eq_true, if_false,
        Leg.exits, List.map_map, branches, exit, List.map_cons, Course.concat, Course.append_bind,
        Course.concat_bind]

theorem course_adopt (e nested : Enumerator D K H) (leg : Leg D K H)
    (leads : leg.dangling? e.config nested.frame.marks = none) (depth : Nat) :
    Phase.course host depth (e.adopt leg nested).2 .working =
      leg.course host depth e.config nested.frame.branch ++
        ((nested.course host depth).bind (leg.course host depth e.config) ++
          Choice.courses host depth e.config e.choices) := by
  rw [course_exits nested.frame.branch leads]
  simp only [Enumerator.adopt, Enumerator.course_branch, Choice.courses, Choice.course]
  rfl

theorem course_ready {e : Enumerator D K H} (ready : e.frame.work = []) (depth : Nat) :
    Phase.course host depth e .working =
      .item e.frame.branch (Choice.courses host depth e.config e.choices) := by
  rw [Phase.course, Frame.course, ready]
  rfl

theorem course_ready_cons {e : Enumerator D K H} (ready : e.frame.work = []) (w : Waiting D K H)
    (waiting : List (Waiting D K H)) (depth : Nat) :
    Machine.course host depth ⟨e, .working, w :: waiting⟩ =
      Waiting.courses host depth waiting
        (w.leg.course host depth w.outer.config e.frame.branch ++
          ((e.yield.course host depth).bind (w.leg.course host depth w.outer.config) ++
            Choice.courses host depth w.outer.config w.outer.choices)) := by
  have rest : e.yield.course host depth = Choice.courses host depth e.config e.choices :=
    Enumerator.course_yielded rfl depth
  rw [rest, ← Course.append_assoc]
  simp only [Machine.course, course_ready ready]
  rfl

theorem trails_of_eq {m : Machine D K H} {later : Nat → Course (Call D H) (Branch D)}
    (same : ∀ depth, m.course host depth = later depth) :
    Trails 1 (fun depth => m.course host depth) later :=
  .of_eq m.course_grows same 1

/-- The calls of a step are the next events of the course, and what is left is the course of the
turn. -/
theorem step_trails {m : Machine D K H} {events : List (Event D K H)} {turn : Turn D K H}
    (step : Step host m events turn) :
    Trails 1 (fun depth => m.course host depth)
      (fun depth => .events (Event.calls events) (turn.course host depth)) := by
  cases step with
  | proceed turns =>
      apply (turns.trails _).congr
      intro depth
      simp only [Event.calls_append, Event.calls_branchNotes, List.append_nil, Turn.course,
        Machine.course, Enumerator.course_branch]
      rfl
  | fail turns => exact turns.trails _
  | abort turns =>
      apply (turns.trails _).congr
      intro depth
      exact congrArg _ (Waiting.courses_failed depth _ _)
  | descend turns =>
      apply (turns.trails _).congr
      intro depth
      simp only [Event.calls_append, Event.calls_note, List.append_nil, Turn.course, course_ask,
        Enumerator.course_seeded]
      rfl
  | @solved e ready =>
      apply trails_of_eq
      intro depth
      have rest : e.yield.course host depth = Choice.courses host depth e.config e.choices :=
        Enumerator.course_yielded rfl depth
      rw [Event.calls_note, Turn.course, rest]
      exact course_ready ready depth
  | @dangling e w waiting error ready dangles =>
      apply trails_of_eq
      intro depth
      rw [course_ready_cons ready, course_dangling dangles, Event.calls_note]
      exact Waiting.courses_failed depth _ error
  | @adopt e w waiting ready leads =>
      apply trails_of_eq
      intro depth
      rw [course_ready_cons ready, Event.calls_append, Event.calls_note, calls_adopt]
      simp only [Turn.course, Machine.course, course_adopt w.outer e.yield w.leg leads]
      rfl
  | @resume e waiting announce frame choices latest =>
      apply trails_of_eq
      intro depth
      rw [Event.calls_note]
      simp only [Machine.course, Phase.course, latest, Choice.courses, Choice.course]
      rfl
  | @reopen e waiting announce leg nested choices latest =>
      apply trails_of_eq
      intro depth
      rw [Event.calls_note, Turn.course, course_ask]
      simp only [Machine.course, Phase.course, latest, Choice.courses, Choice.course]
      rfl
  | @exhausted e phase idle =>
      apply trails_of_eq
      intro depth
      rw [calls_closing]
      exact idle.course depth
  | @barren e phase w waiting idle =>
      apply trails_of_eq
      intro depth
      have none : phase.course host depth e = .done := idle.course depth
      rw [Event.calls_append, calls_closing, calls_giveUp, Machine.course, none]
      rfl

end Machine

end TreeQuery
