import TreeQuery.Enumerator.Machine
import TreeQuery.Proofs.Course.Depth

/-! The course that lies ahead of a state of the search, put together from the courses of the tasks,
branches and choice points that the state holds. Generated patterns are followed to a depth. -/

namespace TreeQuery

variable {D K H : Type}

def Frame.branch (frame : Frame D K H) : Branch D := ⟨frame.captures, frame.marks⟩

variable [TreeLike D K] [BEq D] [BEq K]

section Definitions

variable (host : Host D K H) (depth : Nat)

def Task.course (config : MatchConfig) (task : Task D K H) (branch : Branch D) :
    Course (Call D H) (Branch D) :=
  match task.goal with
  | .pattern pattern => pattern.course host config (depth + 1) task.datum branch
  | .path steps step =>
    Pattern.followBy host config (Pattern.course host config depth) (steps.drop step) step
      task.datum branch

def workCourse (config : MatchConfig) :
    List (Task D K H) → Branch D → Course (Call D H) (Branch D)
  | [], branch => .pure branch
  | task :: work, branch => (task.course host depth config branch).bind (workCourse config work)

def Frame.course (config : MatchConfig) (frame : Frame D K H) : Course (Call D H) (Branch D) :=
  workCourse host depth config frame.work frame.branch

def Leg.course (config : MatchConfig) (leg : Leg D K H) (solved : Branch D) :
    Course (Call D H) (Branch D) :=
  (Pattern.leaveStep config leg.step (leg.steps.length - (leg.step + 1)) leg.marks
    (Pattern.followBy host config (Pattern.course host config depth)
      (leg.steps.drop (leg.step + 1)) (leg.step + 1)) solved).bind
    (workCourse host depth config leg.work)

mutual

def Choice.course (config : MatchConfig) : Choice D K H → Course (Call D H) (Branch D)
  | .resume frame => frame.course host depth config
  | .tail leg nested => (Enumerator.course nested).bind (leg.course host depth config)

def Choice.courses (config : MatchConfig) : List (Choice D K H) → Course (Call D H) (Branch D)
  | [] => .done
  | choice :: choices => Choice.course config choice ++ Choice.courses config choices

/-- The course of the solutions that are still to be handed out. -/
def Enumerator.course : Enumerator D K H → Course (Call D H) (Branch D)
  | ⟨_, _, _, config, frame, choices, progress⟩ =>
    match progress with
    | .searching => frame.course host depth config ++ Choice.courses config choices
    | .yielded => Choice.courses config choices
    | .exhausted => .done

end

def Phase.course (e : Enumerator D K H) : Phase → Course (Call D H) (Branch D)
  | .working => e.frame.course host depth e.config ++ Choice.courses host depth e.config e.choices
  | .retreating _ => Choice.courses host depth e.config e.choices
  | .spent => .done

/-- The course of a waiting enumeration, when the one that it waits for has the course `inner`. -/
def Waiting.course (w : Waiting D K H) (inner : Course (Call D H) (Branch D)) :
    Course (Call D H) (Branch D) :=
  inner.bind (w.leg.course host depth w.outer.config) ++
    Choice.courses host depth w.outer.config w.outer.choices

def Waiting.courses (waiting : List (Waiting D K H)) (inner : Course (Call D H) (Branch D)) :
    Course (Call D H) (Branch D) :=
  waiting.foldl (fun inner w => w.course host depth inner) inner

def Machine.course (m : Machine D K H) : Course (Call D H) (Branch D) :=
  Waiting.courses host depth m.waiting (m.phase.course host depth m.active)

def Turn.course : Turn D K H → Course (Call D H) (Branch D)
  | .next m => m.course host depth
  | .halt (.ok true) e => .item e.frame.branch (e.course host depth)
  | .halt (.ok false) _ => .done
  | .halt (.error error) _ => .failed error

/-- What an outcome of a task leads to; `captures` are the bindings of the branch it comes from. -/
def Outcome.course (config : MatchConfig) (captures : Env D) :
    Outcome D K H → Course (Call D H) (Branch D)
  | .proceed live others =>
    live.course host depth config ++ .concat (others.map (Frame.course host depth config))
  | .fail => .done
  | .abort error => .failed error
  | .descend datum pattern leg =>
    (pattern.course host config (depth + 1) datum ⟨captures, []⟩).bind
      (leg.course host depth config)

end Definitions

variable {host : Host D K H} {config : MatchConfig}

open Course (Below Grows Trails)

theorem Task.course_grows (task : Task D K H) (branch : Branch D) :
    Grows fun depth => task.course host depth config branch := by
  intro depth
  obtain ⟨datum, goal⟩ := task
  cases goal with
  | pattern pattern => exact Pattern.course_below_succ (depth + 1) pattern datum branch
  | path steps step =>
      exact Pattern.followBy_mono (Pattern.course_below_succ depth) (steps.drop step) step datum
        branch

theorem workCourse_grows (work : List (Task D K H)) (branch : Branch D) :
    Grows fun depth => workCourse host depth config work branch := by
  intro depth
  induction work generalizing branch with
  | nil => exact .refl _
  | cons task work ih => exact (Task.course_grows task branch depth).bind ih

theorem Frame.course_grows (frame : Frame D K H) :
    Grows fun depth => frame.course host depth config :=
  workCourse_grows frame.work frame.branch

theorem Leg.course_grows (leg : Leg D K H) (solved : Branch D) :
    Grows fun depth => leg.course host depth config solved := by
  intro depth
  refine Below.bind ?_ fun branch => workCourse_grows leg.work branch depth
  exact Pattern.leaveStep_mono leg.step _ leg.marks
    (Pattern.followBy_mono (Pattern.course_below_succ depth) _ _) solved

mutual

theorem Choice.course_grows (config : MatchConfig) :
    ∀ choice : Choice D K H, Grows fun depth => choice.course host depth config
  | .resume frame => fun depth => by
      simp only [Choice.course]
      exact frame.course_grows depth
  | .tail leg nested => fun depth => by
      simp only [Choice.course]
      exact (Enumerator.course_grows nested depth).bind fun solved => leg.course_grows solved depth

theorem Choice.courses_grow (config : MatchConfig) :
    ∀ choices : List (Choice D K H), Grows fun depth => Choice.courses host depth config choices
  | [] => fun depth => by
      simp only [Choice.courses]
      exact .done
  | choice :: choices => fun depth => by
      simp only [Choice.courses]
      exact (Choice.course_grows config choice depth).append
        (Choice.courses_grow config choices depth)

theorem Enumerator.course_grows :
    ∀ e : Enumerator D K H, Grows fun depth => e.course host depth
  | ⟨_, _, _, config, frame, choices, .searching⟩ => fun depth => by
      simp only [Enumerator.course]
      exact (frame.course_grows depth).append (Choice.courses_grow config choices depth)
  | ⟨_, _, _, config, _, choices, .yielded⟩ => fun depth => by
      simp only [Enumerator.course]
      exact Choice.courses_grow config choices depth
  | ⟨_, _, _, _, _, _, .exhausted⟩ => fun depth => by
      simp only [Enumerator.course]
      exact .done

end

theorem Phase.course_grows (e : Enumerator D K H) (phase : Phase) :
    Grows fun depth => phase.course host depth e := by
  intro depth
  cases phase with
  | working =>
      exact (e.frame.course_grows depth).append (Choice.courses_grow e.config e.choices depth)
  | retreating announce => exact Choice.courses_grow e.config e.choices depth
  | spent => exact .done

theorem Phase.course_ofProgress (depth : Nat) (e : Enumerator D K H) :
    (Phase.ofProgress e.progress).course host depth e = e.course host depth := by
  obtain ⟨root, pattern, seed, config, frame, choices, progress⟩ := e
  cases progress <;> simp [Phase.ofProgress, Phase.course, Enumerator.course]

theorem Enumerator.course_yielded {e : Enumerator D K H} (yielded : e.progress = .yielded)
    (depth : Nat) : e.course host depth = Choice.courses host depth e.config e.choices := by
  rw [← Phase.course_ofProgress, yielded]
  rfl

theorem Enumerator.course_exhausted {e : Enumerator D K H} (exhausted : e.progress = .exhausted)
    (depth : Nat) : e.course host depth = .done := by
  rw [← Phase.course_ofProgress, exhausted]
  rfl

theorem Enumerator.course_seeded (depth : Nat) (root : D) (pattern : Pattern D K H) (seed : Env D) :
    (Enumerator.seeded root pattern seed config).course host depth =
      pattern.course host config (depth + 1) root ⟨seed, []⟩ := by
  simp only [Enumerator.seeded, Enumerator.course, Frame.seeded, Frame.course, Frame.branch,
    workCourse, Choice.courses, Course.append_done]
  exact Course.bind_pure _

namespace Choice

theorem courses_append (depth : Nat) (choices more : List (Choice D K H)) :
    Choice.courses host depth config (choices ++ more) =
      Choice.courses host depth config choices ++ Choice.courses host depth config more := by
  induction choices with
  | nil => simp only [List.nil_append, Choice.courses, Course.done_append]
  | cons choice choices ih =>
      simp only [List.cons_append, Choice.courses, ih, Course.append_assoc]

theorem courses_resume (depth : Nat) (frames : List (Frame D K H)) :
    Choice.courses host depth config (frames.map .resume) =
      .concat (frames.map (Frame.course host depth config)) := by
  induction frames with
  | nil => simp only [List.map_nil, Choice.courses, Course.concat]
  | cons frame frames ih =>
      simp only [List.map_cons, Choice.courses, Choice.course, Course.concat, ih]

end Choice

theorem Enumerator.course_branch (depth : Nat) (e : Enumerator D K H) (live : Frame D K H)
    (others : List (Frame D K H)) :
    Phase.course host depth (e.branch live others) .working =
      (live.course host depth e.config ++
        .concat (others.map (Frame.course host depth e.config))) ++
        Choice.courses host depth e.config e.choices := by
  simp only [Phase.course, Enumerator.branch, Choice.courses_append, Choice.courses_resume,
    Course.append_assoc]

namespace Waiting

theorem courses_failed (depth : Nat) (waiting : List (Waiting D K H)) (error : MatchError) :
    Waiting.courses host depth waiting (.failed error) = .failed error := by
  induction waiting with
  | nil => rfl
  | cons w waiting ih => exact ih

theorem courses_events (depth : Nat) (waiting : List (Waiting D K H)) (calls : List (Call D H))
    (inner : Course (Call D H) (Branch D)) :
    Waiting.courses host depth waiting (.events calls inner) =
      .events calls (Waiting.courses host depth waiting inner) := by
  induction waiting generalizing inner with
  | nil => rfl
  | cons w waiting ih =>
      change Waiting.courses host depth waiting (w.course host depth (.events calls inner)) = _
      rw [Waiting.course, Course.events_bind, Course.events_then, ih]
      rfl

theorem courses_trails {first second : Nat → Course (Call D H) (Branch D)} {lag : Nat}
    (host : Host D K H) (waiting : List (Waiting D K H)) (trails : Trails lag first second) :
    Trails lag (fun depth => Waiting.courses host depth waiting (first depth))
      (fun depth => Waiting.courses host depth waiting (second depth)) := by
  induction waiting generalizing first second with
  | nil => exact trails
  | cons w waiting ih =>
      refine ih ((trails.bind fun solved => ?_).append ?_)
      · exact w.leg.course_grows solved
      · exact Choice.courses_grow w.outer.config w.outer.choices

end Waiting

theorem Machine.course_grows (m : Machine D K H) : Grows fun depth => m.course host depth := by
  intro depth
  have trails : Trails 1 (fun depth => m.phase.course host depth m.active)
      fun depth => m.phase.course host depth m.active :=
    .of_eq (m.phase.course_grows m.active) (fun _ => rfl) 1
  exact (Waiting.courses_trails host m.waiting trails depth).2

end TreeQuery
