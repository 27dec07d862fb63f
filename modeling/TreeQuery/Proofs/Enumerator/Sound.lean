import TreeQuery.Proofs.Datum.Windows
import TreeQuery.Proofs.Enumerator.Captures
import TreeQuery.Proofs.Enumerator.Strictness

/-! What every state of a search looks like. A path is at one of its steps, the enumeration of a step
is kept only after it has found a solution, and all enumerations have the same options. -/

namespace TreeQuery

variable {D K H : Type}

def Task.Sound (task : Task D K H) : Prop :=
  match task.goal with
  | .pattern _ => True
  | .path steps step => 1 ≤ step ∧ step ≤ steps.length

def WorkSound (work : List (Task D K H)) : Prop := ∀ task ∈ work, task.Sound

structure Leg.Sound (leg : Leg D K H) : Prop where
  work : WorkSound leg.work
  step : leg.step < leg.steps.length

mutual

/-- The enumeration of a step that is kept in a choice point holds a solution, with nothing left to do
on its branch. -/
def Choice.Sound (config : MatchConfig) : Choice D K H → Prop
  | .resume frame => WorkSound frame.work
  | .tail leg nested =>
    leg.Sound ∧ nested.progress = .yielded ∧ nested.frame.work = [] ∧ Enumerator.Sound config nested

def Choice.AllSound (config : MatchConfig) : List (Choice D K H) → Prop
  | [] => True
  | choice :: choices => Choice.Sound config choice ∧ Choice.AllSound config choices

def Enumerator.Sound (config : MatchConfig) : Enumerator D K H → Prop
  | ⟨_, _, _, own, frame, choices, _⟩ =>
    own = config ∧ WorkSound frame.work ∧ Choice.AllSound config choices

end

namespace WorkSound

theorem tail {task : Task D K H} {work : List (Task D K H)} (sound : WorkSound (task :: work)) :
    WorkSound work :=
  fun other member => sound other (List.mem_cons_of_mem task member)

theorem append {tasks work : List (Task D K H)} (first : WorkSound tasks) (second : WorkSound work) :
    WorkSound (tasks ++ work) := by
  intro task member
  rcases List.mem_append.mp member with here | there
  · exact first task here
  · exact second task there

theorem ofPattern {work : List (Task D K H)} (sound : WorkSound work) (datum : D)
    (pattern : Pattern D K H) : WorkSound (.ofPattern datum pattern :: work) :=
  List.forall_mem_cons.mpr ⟨trivial, sound⟩

theorem zipWith (data : List D) (items : List (Pattern D K H)) :
    WorkSound (List.zipWith .ofPattern data items) := by
  induction data generalizing items with
  | nil => exact fun _ member => absurd member List.not_mem_nil
  | cons datum data ih =>
      cases items with
      | nil => exact fun _ member => absurd member List.not_mem_nil
      | cons item items => exact (ih items).ofPattern datum item

end WorkSound

theorem Choice.allSound_iff {config : MatchConfig} {choices : List (Choice D K H)} :
    Choice.AllSound config choices ↔ ∀ choice ∈ choices, choice.Sound config := by
  induction choices with
  | nil => simp [Choice.AllSound]
  | cons choice choices ih => rw [Choice.AllSound, ih, List.forall_mem_cons]

namespace Enumerator

theorem sound_iff {config : MatchConfig} {e : Enumerator D K H} :
    e.Sound config ↔
      e.config = config ∧ WorkSound e.frame.work ∧ ∀ choice ∈ e.choices, choice.Sound config := by
  rcases e with ⟨root, pattern, seed, own, frame, choices, progress⟩
  rw [Sound, Choice.allSound_iff]

theorem sound_seeded (root : D) (pattern : Pattern D K H) (seed : Env D) (config : MatchConfig) :
    (seeded root pattern seed config).Sound config := by
  refine sound_iff.mpr ⟨rfl, ?_, fun _ member => absurd member List.not_mem_nil⟩
  have nothing : WorkSound ([] : List (Task D K H)) := fun _ member => absurd member List.not_mem_nil
  exact nothing.ofPattern root pattern

namespace Sound

variable {config : MatchConfig} {e : Enumerator D K H}

theorem options (sound : e.Sound config) : e.config = config := (sound_iff.mp sound).1

theorem work (sound : e.Sound config) : WorkSound e.frame.work := (sound_iff.mp sound).2.1

theorem choices (sound : e.Sound config) : ∀ choice ∈ e.choices, choice.Sound config :=
  (sound_iff.mp sound).2.2

theorem drop (sound : e.Sound config) {work : List (Task D K H)} (rest : WorkSound work) :
    (e.drop work).Sound config :=
  sound_iff.mpr ⟨sound.options, rest, sound.choices⟩

theorem yield (sound : e.Sound config) : e.yield.Sound config :=
  sound_iff.mpr ⟨sound.options, sound.work, sound.choices⟩

theorem finish (sound : e.Sound config) : e.finish.Sound config :=
  sound_iff.mpr ⟨sound.options, sound.work, sound.choices⟩

theorem reset (sound : e.Sound config) : e.reset.Sound config := by
  rw [← sound.options]
  exact sound_seeded e.root e.pattern e.seed e.config

theorem latest {choice : Choice D K H} {choices : List (Choice D K H)} (sound : e.Sound config)
    (latest : e.choices = choice :: choices) : choice.Sound config :=
  sound.choices choice (latest ▸ List.mem_cons_self)

theorem pop {choice : Choice D K H} {choices : List (Choice D K H)} (sound : e.Sound config)
    (latest : e.choices = choice :: choices) : (e.pop choices).Sound config :=
  sound_iff.mpr ⟨sound.options, sound.work,
    fun other member => sound.choices other (latest ▸ List.mem_cons_of_mem _ member)⟩

theorem branch (sound : e.Sound config) {live : Frame D K H} {others : List (Frame D K H)}
    (each : ∀ frame ∈ live :: others, WorkSound frame.work) : (e.branch live others).Sound config := by
  refine sound_iff.mpr ⟨sound.options, each live List.mem_cons_self, fun choice member => ?_⟩
  rcases List.mem_append.mp member with new | old
  · rcases List.mem_map.mp new with ⟨frame, present, rfl⟩
    simp only [Choice.Sound]
    exact each frame (List.mem_cons_of_mem live present)
  · exact sound.choices choice old

end Sound

end Enumerator

theorem Leg.Sound.exits {leg : Leg D K H} (sound : leg.Sound) (captures : Env D) (marks : List D) :
    ∀ frame ∈ (leg.exits captures marks).1 :: (leg.exits captures marks).2, WorkSound frame.work := by
  have going (mark : D) : WorkSound (leg.frame captures [leg.next mark]).work := by
    have taken : (leg.next mark).Sound := ⟨Nat.le_add_left 1 leg.step, sound.step⟩
    exact List.forall_mem_cons.mpr ⟨taken, sound.work⟩
  intro frame member
  cases marks with
  | nil =>
      rw [List.mem_singleton.mp member]
      exact sound.work
  | cons mark marks =>
      rcases List.mem_cons.mp member with rfl | other
      · exact going mark
      · rcases List.mem_map.mp other with ⟨mark', _, rfl⟩
        exact going mark'

theorem Enumerator.Sound.adopt {config : MatchConfig} {e nested : Enumerator D K H} {leg : Leg D K H}
    (sound : e.Sound config) (inner : nested.Sound config) (ready : nested.frame.work = [])
    (step : leg.Sound) : (e.adopt leg nested.yield).2.Sound config := by
  have tail : (Choice.tail leg nested.yield).Sound config := by
    simp only [Choice.Sound]
    exact ⟨step, rfl, ready, inner.yield⟩
  have saved : ({ e with choices := .tail leg nested.yield :: e.choices } :
      Enumerator D K H).Sound config :=
    sound_iff.mpr ⟨sound.options, sound.work, List.forall_mem_cons.mpr ⟨tail, sound.choices⟩⟩
  exact saved.branch (step.exits nested.frame.captures nested.frame.marks)

def Outcome.Sound : Outcome D K H → Prop
  | .proceed live others => ∀ frame ∈ live :: others, WorkSound frame.work
  | .descend _ _ leg => leg.Sound
  | .fail | .abort _ => True

namespace Frame

variable {frame : Frame D K H}

theorem sound_one (sound : WorkSound frame.work) : (Outcome.proceed frame []).Sound := by
  intro other member
  rw [List.mem_singleton.mp member]
  exact sound

theorem sound_ofBool (sound : WorkSound frame.work) (holds : Bool) :
    (Outcome.ofBool frame holds).Sound := by
  cases holds with
  | false => trivial
  | true => exact sound_one sound

theorem sound_matchChildren (sound : WorkSound frame.work) (data : List D)
    (items : List (Pattern D K H)) : (frame.matchChildren data items).Sound := by
  unfold matchChildren
  split
  · exact sound_one ((WorkSound.zipWith data items).append sound)
  · trivial

theorem sound_follow (sound : WorkSound frame.work) (datum : D) (steps : List (Pattern D K H))
    (step : Nat) : (frame.follow datum steps step).Sound := by
  unfold follow
  cases here : steps[step]? with
  | none => exact sound_one sound
  | some pattern => exact ⟨sound, (List.getElem?_eq_some_iff.mp here).1⟩

theorem sound_ofFrames {frames : List (Frame D K H)}
    (each : ∀ frame ∈ frames, WorkSound frame.work) : (Outcome.ofFrames frames).Sound := by
  cases frames with
  | nil => trivial
  | cons live others => exact each

variable [TreeLike D K] [BEq D] [BEq K]

theorem sound_apply (host : Host D K H) (config : MatchConfig) (sound : WorkSound frame.work)
    (datum : D) (pattern : Pattern D K H) : (frame.apply host config datum pattern).Sound := by
  cases pattern with
  | wild | capture name | mark => exact sound_one sound
  | atom value | ofKind kind => exact sound_ofBool sound _
  | template name =>
      simp only [apply]
      cases frame.captures.get? name with
      | some bound => exact sound_ofBool sound _
      | none => cases config.strictTemplates <;> trivial
  | node kind items =>
      simp only [apply]
      split
      · exact sound_matchChildren sound _ items
      · trivial
  | contents items => exact sound_matchChildren sound _ items
  | and left right => exact sound_one ((sound.ofPattern datum right).ofPattern datum left)
  | or left right =>
      exact List.forall_mem_cons.mpr
        ⟨sound.ofPattern datum left, sound_one (sound.ofPattern datum right)⟩
  | path steps => exact sound_follow sound datum steps 0
  | window items =>
      refine sound_ofFrames ?_
      intro other member
      rcases List.mem_map.mp member with ⟨run, _, rfl⟩
      exact (WorkSound.zipWith run items).append sound
  | test handle =>
      simp only [apply]
      cases host.test handle datum with
      | ok holds => exact sound_ofBool sound holds
      | error error => trivial
  | generate handle =>
      simp only [apply]
      cases host.generate handle frame.captures with
      | ok pattern => exact sound_one (sound.ofPattern datum pattern)
      | error error => trivial

theorem sound_perform (host : Host D K H) (config : MatchConfig) (sound : WorkSound frame.work)
    (task : Task D K H) : (frame.perform host config task).2.Sound := by
  rcases task with ⟨datum, goal⟩
  cases goal with
  | pattern pattern => exact sound_apply host config sound datum pattern
  | path steps step => exact sound_follow sound datum steps step

end Frame

/-- The shape of a state of the search, also of the enumerations that wait. While others wait for the
active enumeration, there is something for it to do. -/
structure Machine.Sound (config : MatchConfig) (m : Machine D K H) : Prop where
  active : m.active.Sound config
  waiting : ∀ w ∈ m.waiting, w.leg.Sound ∧ w.outer.Sound config
  busy : m.waiting ≠ [] → m.phase ≠ .spent

def Turn.Sound (config : MatchConfig) : Turn D K H → Prop
  | .next m => m.Sound config
  | .halt _ e => e.Sound config

namespace Machine

variable {config : MatchConfig}

theorem Sound.outermost {m : Machine D K H} (sound : m.Sound config) : m.outermost.Sound config := by
  unfold Machine.outermost
  cases last : m.waiting.getLast? with
  | none => exact sound.active
  | some w => exact (sound.waiting w (List.mem_of_getLast? last)).2

theorem Sound.adopt {e : Enumerator D K H} {phase : Phase} {w : Waiting D K H}
    {waiting : List (Waiting D K H)} (sound : Sound config ⟨e, phase, w :: waiting⟩)
    (ready : e.frame.work = []) :
    Sound config ⟨(w.outer.adopt w.leg e.yield).2, .working, waiting⟩ := by
  rcases List.forall_mem_cons.mp sound.waiting with ⟨⟨step, outer⟩, waiting⟩
  exact ⟨outer.adopt sound.active ready step, waiting, fun _ => nofun⟩

theorem sound_ask {e : Enumerator D K H} (sound : e.Sound config) : (ask e []).Sound config :=
  ⟨sound, fun _ member => absurd member List.not_mem_nil, fun others => absurd rfl others⟩

variable [TreeLike D K] [BEq D] [BEq K] {host : Host D K H}

theorem Turns.sound {e : Enumerator D K H} {work : List (Task D K H)} {calls : List (Event D K H)}
    {outcome : Outcome D K H} (turns : Turns host e work calls outcome)
    (sound : WorkSound e.frame.work) : WorkSound work ∧ outcome.Sound := by
  rcases turns with ⟨task, front, performed⟩
  rw [front] at sound
  have rest : WorkSound (e.drop work).frame.work := sound.tail
  have turned := Frame.sound_perform host e.config rest task
  rw [performed] at turned
  exact ⟨rest, turned⟩

theorem Step.going {m m' : Machine D K H} {events : List (Event D K H)}
    (step : Step host m events (.next m')) (sound : m.Sound config) : m'.phase ≠ .spent := by
  cases step with
  | reopen latest =>
      have reopened := sound.active.latest latest
      simp only [Choice.Sound] at reopened
      rw [ask, reopened.2.1]
      intro spent
      cases spent
  | _ =>
      intro spent
      cases spent

theorem Step.sound {m : Machine D K H} {events : List (Event D K H)} {turn : Turn D K H}
    (step : Step host m events turn) (sound : m.Sound config) : turn.Sound config := by
  cases step with
  | proceed turns =>
      rcases turns.sound sound.active.work with ⟨_, each⟩
      exact ⟨sound.active.branch each, sound.waiting, fun _ => nofun⟩
  | fail turns =>
      rcases turns.sound sound.active.work with ⟨rest, _⟩
      exact ⟨sound.active.drop rest, sound.waiting, fun _ => nofun⟩
  | @abort e waiting work calls error turns =>
      rcases turns.sound sound.active.work with ⟨rest, _⟩
      have dropped : Sound config ⟨e.drop work, .working, waiting⟩ :=
        ⟨sound.active.drop rest, sound.waiting, sound.busy⟩
      exact dropped.outermost.finish
  | descend turns =>
      rcases turns.sound sound.active.work with ⟨rest, step⟩
      refine ⟨?_, List.forall_mem_cons.mpr ⟨⟨step, sound.active.drop rest⟩, sound.waiting⟩,
        fun _ => nofun⟩
      rw [sound.active.options]
      exact Enumerator.sound_seeded _ _ _ config
  | solved ready => exact sound.active.yield
  | dangling ready dangles => exact (sound.adopt ready).outermost.finish
  | adopt ready leads => exact sound.adopt ready
  | resume latest =>
      have resumed := sound.active.latest latest
      simp only [Choice.Sound] at resumed
      have popped : (Enumerator.pop _ _).Sound config := sound.active.pop latest
      exact ⟨Enumerator.sound_iff.mpr ⟨popped.options, resumed, popped.choices⟩, sound.waiting,
        fun _ => nofun⟩
  | @reopen e waiting announce leg nested choices latest =>
      have reopened := sound.active.latest latest
      simp only [Choice.Sound] at reopened
      rcases reopened with ⟨step, _, _, inner⟩
      have reopens : Step host ⟨e, .retreating announce, waiting⟩ _ _ := .reopen latest
      exact ⟨inner, List.forall_mem_cons.mpr ⟨⟨step, sound.active.pop latest⟩, sound.waiting⟩,
        fun _ => reopens.going sound⟩
  | exhausted idle => exact sound.active.finish
  | barren idle =>
      rcases List.forall_mem_cons.mp sound.waiting with ⟨⟨_, outer⟩, waiting⟩
      exact ⟨outer, waiting, fun _ => nofun⟩

theorem Reachable.sound {fresh : Enumerator D K H} {m : Machine D K H}
    (reachable : Reachable host fresh m) (sound : fresh.Sound config) : m.Sound config := by
  induction reachable with
  | start => exact sound_ask sound
  | next earlier now ih => exact (step_of_eq now).sound ih
  | again earlier now ih => exact sound_ask ((step_of_eq now).sound ih)
  | reset earlier ih => exact sound_ask ih.active.reset

/-- An error without a call of the host is that of an unbound variable, or of a path whose step marks
nothing although steps remain. -/
theorem Step.error_of_silent {m : Machine D K H} {events : List (Event D K H)} {error : MatchError}
    {e : Enumerator D K H} (step : Step host m events (.halt (.error error) e))
    (silent : Event.calls events = []) :
    (∃ name, error = .unboundTemplate name) ∨
      ∃ w waiting remaining, m.waiting = w :: waiting ∧
        error = .danglingPath w.leg.step remaining ∧
        w.leg.step + 1 + remaining = w.leg.steps.length ∧ 1 ≤ remaining := by
  cases step with
  | @abort e waiting work calls error turns =>
      left
      -- Under lenient options the task turns out the same only if the host has been called.
      rcases turns.relaxed rfl (e.config.clear_relaxes true true) with same | ⟨name, aborts, _⟩
      · rcases same with ⟨⟨datum, goal⟩, _, performed⟩
        rw [Enumerator.config_withConfig] at performed
        cases goal with
        | path steps step =>
            exact absurd (Prod.mk.inj performed).2 (Frame.follow_ne_abort _ datum steps step error)
        | pattern pattern =>
            rcases Prod.mk.inj performed with ⟨rfl, aborts⟩
            rcases Frame.apply_eq_abort (Bool.and_false _) aborts with ⟨call, called, _⟩
            rw [called] at silent
            cases silent
      · exact ⟨name, Outcome.abort.inj aborts⟩
  | @dangling e w waiting error ready dangles =>
      right
      rcases Leg.dangling?_eq_some dangles with ⟨_, _, remaining, more, follow, rfl⟩
      exact ⟨w, waiting, remaining, rfl, rfl, follow.symm, more⟩

theorem Halts.ready {m : Machine D K H} {reply : Reply D K H (Except MatchError Bool)}
    (halts : Halts host m reply) (solution : reply.answer = .ok true) :
    reply.enumerator.frame.work = [] := by
  induction halts with
  | halt now =>
      cases solution
      cases step_of_eq now with
      | solved ready => exact ready
  | next now later ih => exact ih solution

theorem Halts.bottom {m : Machine D K H} {reply : Reply D K H (Except MatchError Bool)}
    (halts : Halts host m reply) (sound : m.Sound config) (going : m.phase ≠ .spent)
    (nothing : reply.answer = .ok false) : reply.enumerator.choices = [] := by
  induction halts with
  | halt now =>
      cases nothing
      cases step_of_eq now with
      | exhausted idle =>
          rcases idle with spent | ⟨_, _, bottom⟩
          · exact absurd spent going
          · exact bottom
  | next now later ih =>
      have step := step_of_eq now
      exact ih (step.sound sound) (step.going sound) nothing

end Machine

end TreeQuery
