import Mathlib.Data.Multiset.DershowitzManna
import Mathlib.Tactic.Abel
import TreeQuery.Pattern.Kind
import TreeQuery.Proofs.Enumerator.Step

/-! Why the search cannot go on for ever without asking the host for a pattern. Every branch and
every choice point of a state is a load; a step takes one of the loads away and puts in its place
finitely many that are lighter. -/

namespace TreeQuery

variable {D K H : Type}

theorem Pattern.size_pos (p : Pattern D K H) : 0 < p.size := by
  cases p <;> simp [Pattern.size]

/-- A pattern in a task weighs less than three times its size, and a path three times the size of
the steps to come. So what is left of a path when one of its steps begins, together with that step,
weighs less than the path. -/
def Task.weight (task : Task D K H) : Nat :=
  match task.goal with
  | .pattern pattern => 3 * pattern.size - 2
  | .path steps step => 3 * Pattern.sizeAll (steps.drop step) + 1

def workWeight (work : List (Task D K H)) : Nat := total Task.weight work

def Leg.room (leg : Leg D K H) : Nat :=
  workWeight leg.work + 3 * Pattern.sizeAll (leg.steps.drop (leg.step + 1)) + 2

mutual

/-- The loads of a choice point, on top of `base`, what the paths need that wait for it. A branch
that is saved counts for a little more than the same branch when it is live. -/
def Choice.loads (base : Nat) : Choice D K H → Multiset Nat
  | .resume frame => {base + (2 * workWeight frame.work + 1)}
  | .tail leg nested => {base + 1} + Enumerator.loads (2 * leg.room + base) nested

def Choice.allLoads (base : Nat) : List (Choice D K H) → Multiset Nat
  | [] => 0
  | choice :: choices => Choice.loads base choice + Choice.allLoads base choices

def Enumerator.loads (base : Nat) : Enumerator D K H → Multiset Nat
  | ⟨_, _, _, _, frame, choices, progress⟩ =>
    match progress with
    | .searching => {base + 2 * workWeight frame.work} + Choice.allLoads base choices
    | .yielded => Choice.allLoads base choices
    | .exhausted => 0

end

def Phase.loads (base : Nat) (e : Enumerator D K H) : Phase → Multiset Nat
  | .working => {base + 2 * workWeight e.frame.work} + Choice.allLoads base e.choices
  | .retreating _ => Choice.allLoads base e.choices
  | .spent => 0

def Waiting.base (waiting : List (Waiting D K H)) : Nat := total (2 * ·.leg.room) waiting

def Waiting.loads : List (Waiting D K H) → Multiset Nat
  | [] => 0
  | w :: waiting =>
    {Waiting.base waiting} + Choice.allLoads (Waiting.base waiting) w.outer.choices +
      Waiting.loads waiting

def Machine.loads (m : Machine D K H) : Multiset Nat :=
  m.phase.loads (Waiting.base m.waiting) m.active + Waiting.loads m.waiting

def Outcome.Lighter (bound : Nat) : Outcome D K H → Prop
  | .proceed live others => ∀ frame ∈ live :: others, workWeight frame.work < bound
  | .descend _ pattern leg => leg.room + (3 * pattern.size - 2) < bound
  | .fail | .abort _ => True

theorem workWeight_cons (task : Task D K H) (work : List (Task D K H)) :
    workWeight (task :: work) = task.weight + workWeight work :=
  total_cons Task.weight task work

theorem workWeight_append (work more : List (Task D K H)) :
    workWeight (work ++ more) = workWeight work + workWeight more :=
  total_append Task.weight work more

theorem Pattern.sizeAll_cons (p : Pattern D K H) (ps : List (Pattern D K H)) :
    Pattern.sizeAll (p :: ps) = p.size + Pattern.sizeAll ps := rfl

theorem workWeight_zipWith (data : List D) (items : List (Pattern D K H)) :
    workWeight (List.zipWith .ofPattern data items) ≤ 3 * Pattern.sizeAll items := by
  induction items generalizing data with
  | nil => simp [workWeight]
  | cons item items ih =>
      cases data with
      | nil => simp [workWeight]
      | cons datum data =>
          have rest := ih data
          have weight : (Task.ofPattern datum item).weight = 3 * item.size - 2 := rfl
          rw [List.zipWith_cons_cons, workWeight_cons, Pattern.sizeAll_cons, weight]
          omega

namespace Frame

theorem lighter_one {frame : Frame D K H} {bound : Nat} (lighter : workWeight frame.work < bound) :
    (Outcome.proceed frame []).Lighter bound := by
  intro other member
  rw [List.mem_singleton.mp member]
  exact lighter

theorem lighter_ofBool {frame : Frame D K H} {bound : Nat}
    (lighter : workWeight frame.work < bound) (holds : Bool) :
    (Outcome.ofBool frame holds).Lighter bound := by
  cases holds with
  | false => trivial
  | true => exact lighter_one lighter

theorem lighter_ofFrames {frames : List (Frame D K H)} {bound : Nat}
    (each : ∀ frame ∈ frames, workWeight frame.work < bound) :
    (Outcome.ofFrames frames).Lighter bound := by
  cases frames with
  | nil => trivial
  | cons live others => exact each

theorem weight_pushPairs (frame : Frame D K H) (data : List D) (items : List (Pattern D K H)) :
    workWeight (frame.pushPairs data items).work ≤
      3 * Pattern.sizeAll items + workWeight frame.work := by
  have pairs := workWeight_zipWith data items
  have split : workWeight (frame.pushPairs data items).work =
      workWeight (List.zipWith .ofPattern data items) + workWeight frame.work :=
    workWeight_append _ _
  omega

theorem lighter_matchChildren (frame : Frame D K H) (data : List D)
    (items : List (Pattern D K H)) :
    (frame.matchChildren data items).Lighter
      (3 * Pattern.sizeAll items + 1 + workWeight frame.work) := by
  have weight := weight_pushPairs frame data items
  unfold matchChildren
  split
  · exact lighter_one (by omega)
  · trivial

theorem lighter_follow (frame : Frame D K H) (datum : D) (steps : List (Pattern D K H))
    (step : Nat) :
    (frame.follow datum steps step).Lighter
      (3 * Pattern.sizeAll (steps.drop step) + 1 + workWeight frame.work) := by
  unfold follow
  cases here : steps[step]? with
  | none => exact lighter_one (by omega)
  | some pattern =>
      obtain ⟨bound, rfl⟩ := List.getElem?_eq_some_iff.mp here
      have positive := Pattern.size_pos steps[step]
      rw [List.drop_eq_getElem_cons bound, Pattern.sizeAll_cons]
      simp only [Outcome.Lighter, Leg.room]
      omega

theorem weight_push (frame : Frame D K H) (datum : D) (p : Pattern D K H) :
    workWeight (frame.push [.ofPattern datum p]).work = 3 * p.size - 2 + workWeight frame.work :=
  workWeight_cons _ _

theorem lighter_both (frame : Frame D K H) (datum : D) (left right : Pattern D K H) :
    (Outcome.proceed (frame.push [.ofPattern datum left, .ofPattern datum right]) []).Lighter
      (3 * (left.size + right.size + 1) - 2 + workWeight frame.work) := by
  have first : workWeight (frame.push [.ofPattern datum left, .ofPattern datum right]).work =
      3 * left.size - 2 + workWeight (frame.push [.ofPattern datum right]).work := workWeight_cons _ _
  have positive := left.size_pos
  have positive' := right.size_pos
  rw [weight_push] at first
  exact lighter_one (by omega)

theorem lighter_either (frame : Frame D K H) (datum : D) (left right : Pattern D K H) :
    (Outcome.proceed (frame.push [.ofPattern datum left])
      [frame.push [.ofPattern datum right]]).Lighter
      (3 * (left.size + right.size + 1) - 2 + workWeight frame.work) := by
  have positive := left.size_pos
  have positive' := right.size_pos
  intro other member
  rcases List.mem_pair.mp member with rfl | rfl
  · rw [weight_push]
    omega
  · rw [weight_push]
    omega

theorem lighter_windows (frame : Frame D K H) (runs : List (List D)) (items : List (Pattern D K H)) :
    (Outcome.ofFrames (runs.map (frame.pushPairs · items))).Lighter
      (3 * Pattern.sizeAll items + 1 + workWeight frame.work) := by
  refine lighter_ofFrames fun other member => ?_
  rcases List.mem_map.mp member with ⟨run, _, rfl⟩
  have bound := weight_pushPairs frame run items
  omega

variable [TreeLike D K] [BEq D] [BEq K]

theorem lighter_apply (host : Host D K H) (config : MatchConfig) (frame : Frame D K H) (datum : D)
    (pattern : Pattern D K H) (plain : ∀ handle, pattern ≠ .generate handle) :
    (frame.apply host config datum pattern).Lighter
      (3 * pattern.size - 2 + workWeight frame.work) := by
  -- A pattern without items leaves only the work behind it.
  have leaf : workWeight frame.work < 3 * pattern.size - 2 + workWeight frame.work := by
    have positive := pattern.size_pos
    omega
  have items_weight {items : List (Pattern D K H)} (size : pattern.size = Pattern.sizeAll items + 1) :
      3 * pattern.size - 2 = 3 * Pattern.sizeAll items + 1 := by
    omega
  cases pattern with
  | wild | capture name | mark => exact lighter_one leaf
  | atom value | ofKind kind => exact lighter_ofBool leaf _
  | template name =>
      simp only [apply]
      cases frame.captures.get? name with
      | some bound => exact lighter_ofBool leaf _
      | none => cases config.strictTemplates <;> trivial
  | node kind items =>
      simp only [apply]
      rw [items_weight rfl]
      cases TreeLike.kind datum == kind with
      | true => exact lighter_matchChildren frame _ items
      | false => trivial
  | contents items =>
      rw [items_weight rfl]
      exact lighter_matchChildren frame _ items
  | and left right => exact lighter_both frame datum left right
  | or left right => exact lighter_either frame datum left right
  | path steps =>
      rw [items_weight rfl]
      exact lighter_follow frame datum steps 0
  | window items =>
      rw [items_weight rfl]
      exact lighter_windows frame _ items
  | test handle =>
      simp only [apply]
      cases host.test handle datum with
      | ok holds => exact lighter_ofBool leaf _
      | error error => trivial
  | generate handle => exact absurd rfl (plain handle)

theorem lighter_perform (host : Host D K H) (config : MatchConfig) (frame : Frame D K H)
    (task : Task D K H) (silent : Event.calls (frame.perform host config task).1 = []) :
    (frame.perform host config task).2.Lighter (task.weight + workWeight frame.work) := by
  obtain ⟨datum, goal⟩ := task
  cases goal with
  | pattern pattern =>
      refine lighter_apply host config frame datum pattern ?_
      rintro handle rfl
      cases silent
  | path steps step => exact lighter_follow frame datum steps step

end Frame

theorem lighter_of_exchange {before after : Multiset Nat} (kept taken added : Multiset Nat)
    (heavy : Nat) (was : before = kept + taken) (becomes : after = kept + added) (member : heavy ∈ taken)
    (lighter : ∀ load ∈ added, load < heavy) : Multiset.IsDershowitzMannaLT after before := by
  refine ⟨kept, added, taken, ?_, becomes, was, ?_⟩
  · rintro rfl
    exact Multiset.notMem_zero heavy member
  · intro load present
    exact ⟨heavy, member, lighter load present⟩

theorem lighter_of_one {before after : Multiset Nat} (kept : Multiset Nat) (heavy : Nat)
    (added : Multiset Nat) (was : before = kept + {heavy}) (becomes : after = kept + added)
    (lighter : ∀ load ∈ added, load < heavy) : Multiset.IsDershowitzMannaLT after before :=
  lighter_of_exchange kept {heavy} added heavy was becomes (Multiset.mem_singleton_self heavy) lighter

theorem nothing_lighter {heavy : Nat} : ∀ load ∈ (0 : Multiset Nat), load < heavy :=
  fun load member => absurd member (Multiset.notMem_zero load)

theorem allLoads_append (base : Nat) (choices more : List (Choice D K H)) :
    Choice.allLoads base (choices ++ more) =
      Choice.allLoads base choices + Choice.allLoads base more := by
  induction choices with
  | nil => simp only [List.nil_append, Choice.allLoads, zero_add]
  | cons choice choices ih => simp only [List.cons_append, Choice.allLoads, ih, add_assoc]

theorem mem_allLoads_resume {base load : Nat} {frames : List (Frame D K H)}
    (member : load ∈ Choice.allLoads base (frames.map .resume)) :
    ∃ frame ∈ frames, load = base + (2 * workWeight frame.work + 1) := by
  induction frames with
  | nil => simp [Choice.allLoads] at member
  | cons frame frames ih =>
      simp only [List.map_cons, Choice.allLoads, Choice.loads, Multiset.mem_add,
        Multiset.mem_singleton] at member
      rcases member with here | later
      · exact ⟨frame, List.mem_cons_self, here⟩
      · rcases ih later with ⟨other, present, same⟩
        exact ⟨other, List.mem_cons_of_mem _ present, same⟩

theorem branch_lighter {base bound : Nat} {live : Frame D K H} {others : List (Frame D K H)}
    (each : ∀ frame ∈ live :: others, workWeight frame.work < bound) :
    ∀ load ∈ ({base + 2 * workWeight live.work} : Multiset Nat) +
      Choice.allLoads base (others.map .resume), load < base + 2 * bound := by
  intro load member
  rcases Multiset.mem_add.mp member with now | saved
  · have lighter := each live List.mem_cons_self
    rw [Multiset.mem_singleton] at now
    omega
  · rcases mem_allLoads_resume saved with ⟨frame, present, rfl⟩
    have lighter := each frame (List.mem_cons_of_mem _ present)
    omega

theorem Leg.exits_lighter (leg : Leg D K H) (captures : Env D) (marks : List D) :
    ∀ frame ∈ (leg.exits captures marks).1 :: (leg.exits captures marks).2,
      workWeight frame.work < leg.room := by
  have bare : workWeight (leg.frame captures []).work < leg.room := by
    simp only [Leg.frame, List.nil_append, Leg.room]
    omega
  have going (mark : D) : workWeight (leg.frame captures [leg.next mark]).work < leg.room := by
    have task : (leg.next mark).weight =
        3 * Pattern.sizeAll (leg.steps.drop (leg.step + 1)) + 1 := rfl
    simp only [Leg.frame, List.cons_append, List.nil_append, workWeight_cons, task, Leg.room]
    omega
  intro frame member
  cases marks with
  | nil =>
      rw [List.mem_singleton.mp member]
      exact bare
  | cons mark marks =>
      rcases List.mem_cons.mp member with rfl | other
      · exact going mark
      · rcases List.mem_map.mp other with ⟨mark', _, rfl⟩
        exact going mark'

theorem loads_ofProgress (base : Nat) (e : Enumerator D K H) :
    (Phase.ofProgress e.progress).loads base e = e.loads base := by
  obtain ⟨root, pattern, seed, config, frame, choices, progress⟩ := e
  cases progress <;> simp only [Phase.ofProgress, Phase.loads, Enumerator.loads]

theorem Enumerator.loads_yield (base : Nat) (e : Enumerator D K H) :
    e.yield.loads base = Choice.allLoads base e.choices := by
  rw [← loads_ofProgress]
  rfl

theorem Enumerator.loads_seeded (base : Nat) (root : D) (pattern : Pattern D K H) (seed : Env D)
    (config : MatchConfig) :
    (Enumerator.seeded root pattern seed config).loads base =
      {base + 2 * (3 * pattern.size - 2)} := by
  simp only [Enumerator.seeded, Enumerator.loads, Frame.seeded, Choice.allLoads, add_zero]
  rfl

theorem Machine.Idle.loads {m : Machine D K H} (idle : m.Idle) (base : Nat) :
    m.phase.loads base m.active = 0 := by
  rcases idle with spent | ⟨announce, retreating, none⟩
  · rw [spent]
    rfl
  · rw [retreating, Phase.loads, none]
    simp only [Choice.allLoads]

namespace Machine

theorem loads_ask (e : Enumerator D K H) (waiting : List (Waiting D K H)) :
    (Machine.ask e waiting).loads = e.loads (Waiting.base waiting) + Waiting.loads waiting :=
  congrArg (· + Waiting.loads waiting) (loads_ofProgress _ e)

section Exchange

variable {e : Enumerator D K H} {waiting : List (Waiting D K H)} {w : Waiting D K H}

theorem proceed_lighter {live : Frame D K H} {others : List (Frame D K H)}
    (each : ∀ frame ∈ live :: others, workWeight frame.work < workWeight e.frame.work) :
    Multiset.IsDershowitzMannaLT (loads ⟨e.branch live others, .working, waiting⟩)
      (loads ⟨e, .working, waiting⟩) := by
  let base := Waiting.base waiting
  refine lighter_of_one (Choice.allLoads base e.choices + Waiting.loads waiting)
    (base + 2 * workWeight e.frame.work)
    ({base + 2 * workWeight live.work} + Choice.allLoads base (others.map .resume)) ?_ ?_
    (branch_lighter each)
  · simp only [Machine.loads, Phase.loads]
    abel
  · simp only [Machine.loads, Phase.loads, Enumerator.branch, allLoads_append]
    abel

theorem fail_lighter (work : List (Task D K H)) :
    Multiset.IsDershowitzMannaLT (loads ⟨e.drop work, .retreating true, waiting⟩)
      (loads ⟨e, .working, waiting⟩) := by
  let base := Waiting.base waiting
  refine lighter_of_one (Choice.allLoads base e.choices + Waiting.loads waiting)
    (base + 2 * workWeight e.frame.work) 0 ?_ ?_ nothing_lighter
  · simp only [Machine.loads, Phase.loads]
    abel
  · simp only [Machine.loads, Phase.loads, Enumerator.drop, add_zero, base]

theorem descend_lighter {datum : D} {pattern : Pattern D K H} {leg : Leg D K H}
    (lighter : leg.room + (3 * pattern.size - 2) < workWeight e.frame.work)
    (work : List (Task D K H)) (seed : Env D) (config : MatchConfig) :
    Multiset.IsDershowitzMannaLT
      (loads (.ask (.seeded datum pattern seed config) (⟨e.drop work, leg, .first⟩ :: waiting)))
      (loads ⟨e, .working, waiting⟩) := by
  let base := Waiting.base waiting
  refine lighter_of_one (Choice.allLoads base e.choices + Waiting.loads waiting)
    (base + 2 * workWeight e.frame.work)
    ({2 * leg.room + base + 2 * (3 * pattern.size - 2)} + {base}) ?_ ?_ ?_
  · simp only [Machine.loads, Phase.loads]
    abel
  · simp only [loads_ask, Enumerator.loads_seeded, Waiting.loads, Waiting.base, total_cons,
      Enumerator.drop, base]
    abel
  · intro load member
    simp only [Multiset.mem_add, Multiset.mem_singleton] at member
    omega

/-- The solved branch itself weighs nothing. What its path kept in reserve outweighs the branches that
the marks open and the choice point for the further solutions of the step. -/
theorem adopt_lighter (ready : e.frame.work = []) :
    Multiset.IsDershowitzMannaLT (loads ⟨(w.outer.adopt w.leg e.yield).2, .working, waiting⟩)
      (loads ⟨e, .working, w :: waiting⟩) := by
  let base := Waiting.base waiting
  let exits := w.leg.exits e.frame.captures e.frame.marks
  have bare : workWeight e.frame.work = 0 := by rw [ready]; rfl
  refine lighter_of_exchange
    (Choice.allLoads (2 * w.leg.room + base) e.choices +
      Choice.allLoads base w.outer.choices + Waiting.loads waiting)
    ({base + 2 * w.leg.room} + {base})
    (({base + 2 * workWeight exits.1.work} + Choice.allLoads base (exits.2.map .resume)) +
      {base + 1}) (base + 2 * w.leg.room) ?_ ?_ (by simp) ?_
  · simp only [Machine.loads, Phase.loads, bare, Waiting.loads, Waiting.base, total_cons, base,
      mul_zero, add_zero]
    rw [Nat.add_comm _ (2 * w.leg.room)]
    abel
  · simp only [Machine.loads, Phase.loads, Enumerator.adopt, Enumerator.branch, allLoads_append,
      Choice.allLoads, Choice.loads, Enumerator.loads_yield]
    simp only [Enumerator.yield, exits, base]
    abel
  · intro load member
    rcases Multiset.mem_add.mp member with exit | token
    · exact branch_lighter (Leg.exits_lighter w.leg _ _) load exit
    · have room : 2 ≤ w.leg.room := Nat.le_add_left _ _
      rw [Multiset.mem_singleton] at token
      omega

theorem resume_lighter {announce : Bool} {frame : Frame D K H} {choices : List (Choice D K H)}
    (latest : e.choices = .resume frame :: choices) :
    Multiset.IsDershowitzMannaLT (loads ⟨{ e with frame, choices }, .working, waiting⟩)
      (loads ⟨e, .retreating announce, waiting⟩) := by
  let base := Waiting.base waiting
  refine lighter_of_one (Choice.allLoads base choices + Waiting.loads waiting)
    (base + (2 * workWeight frame.work + 1)) {base + 2 * workWeight frame.work} ?_ ?_ ?_
  · simp only [Machine.loads, Phase.loads, latest, Choice.allLoads, Choice.loads]
    abel
  · simp only [Machine.loads, Phase.loads]
    abel
  · intro load member
    rw [Multiset.mem_singleton] at member
    omega

theorem reopen_lighter {announce : Bool} {leg : Leg D K H} {nested : Enumerator D K H}
    {choices : List (Choice D K H)} {origin : Origin} (latest : e.choices = .tail leg nested :: choices) :
    Multiset.IsDershowitzMannaLT (loads (.ask nested (⟨e.pop choices, leg, origin⟩ :: waiting)))
      (loads ⟨e, .retreating announce, waiting⟩) := by
  let base := Waiting.base waiting
  refine lighter_of_one
    (nested.loads (2 * leg.room + base) + Choice.allLoads base choices + Waiting.loads waiting)
    (base + 1) {base} ?_ ?_ ?_
  · simp only [Machine.loads, Phase.loads, latest, Choice.allLoads, Choice.loads]
    abel
  · simp only [loads_ask, Waiting.loads, Waiting.base, total_cons, Enumerator.pop, base]
    abel
  · intro load member
    rw [Multiset.mem_singleton] at member
    omega

theorem barren_lighter {phase : Phase} {announce : Bool} (idle : Idle ⟨e, phase, w :: waiting⟩) :
    Multiset.IsDershowitzMannaLT (loads ⟨w.outer, .retreating announce, waiting⟩)
      (loads ⟨e, phase, w :: waiting⟩) := by
  let base := Waiting.base waiting
  have none : phase.loads (Waiting.base (w :: waiting)) e = 0 := idle.loads _
  refine lighter_of_one (Choice.allLoads base w.outer.choices + Waiting.loads waiting) base 0 ?_ ?_
    nothing_lighter
  · simp only [Machine.loads, none, Waiting.loads]
    abel
  · simp only [Machine.loads, Phase.loads, add_zero, base]

end Exchange

variable [TreeLike D K] [BEq D] [BEq K] {host : Host D K H}

theorem Turns.lighter {e : Enumerator D K H} {work : List (Task D K H)}
    {calls : List (Event D K H)} {outcome : Outcome D K H}
    (turns : Turns host e work calls outcome) (silent : Event.calls calls = []) :
    outcome.Lighter (workWeight e.frame.work) := by
  rcases turns with ⟨task, first, performed⟩
  have lighter := Frame.lighter_perform host e.config (e.drop work).frame task
  rw [performed] at lighter
  rw [first, workWeight_cons]
  exact lighter silent

/-- As long as no host function is called, each step makes the loads lighter. -/
theorem step_lighter {m m' : Machine D K H} {events : List (Event D K H)}
    (step : Step host m events (.next m')) (silent : Event.calls events = []) :
    Multiset.IsDershowitzMannaLT m'.loads m.loads := by
  cases step with
  | proceed turns =>
      rw [Event.calls_append, Event.calls_branchNotes, List.append_nil] at silent
      exact proceed_lighter (turns.lighter silent)
  | fail turns => exact fail_lighter _
  | descend turns =>
      rw [Event.calls_append, Event.calls_note, List.append_nil] at silent
      exact descend_lighter (turns.lighter silent) _ _ _
  | adopt ready leads => exact adopt_lighter ready
  | resume latest => exact resume_lighter latest
  | reopen latest => exact reopen_lighter latest
  | barren idle => exact barren_lighter idle

end Machine

end TreeQuery
