import TreeQuery.Find
import TreeQuery.Proofs.Enumerator.Reset

/-! Bindings are only ever added along a branch of the search, so every branch goes on from the
bindings that its enumeration began with. -/

namespace TreeQuery

variable {D K H : Type}

/-- The bindings of the first environment are the first ones of the second. -/
def Env.Begins (first second : Env D) : Prop := first.bindings <+: second.bindings

namespace Env.Begins

theorem refl (env : Env D) : env.Begins env := List.prefix_rfl

theorem trans {a b c : Env D} (one : a.Begins b) (other : b.Begins c) : a.Begins c :=
  List.IsPrefix.trans one other

theorem bind (env : Env D) (name : String) (datum : D) : env.Begins (env.bind name datum) :=
  List.prefix_append _ _

theorem get? {first second : Env D} (begins : first.Begins second) {name : String} {value : D}
    (bound : first.get? name = some value) : second.get? name = some value := by
  rcases begins with ⟨more, whole⟩
  rw [Env.get?, ← whole, List.lookup_append]
  rw [Env.get?] at bound
  rw [bound]
  rfl

end Env.Begins

mutual

def Choice.Extends (captures : Env D) : Choice D K H → Prop
  | .resume frame => captures.Begins frame.captures
  | .tail _ nested => captures.Begins nested.seed ∧ Enumerator.Rooted nested

def Choice.AllExtend (captures : Env D) : List (Choice D K H) → Prop
  | [] => True
  | choice :: choices => Choice.Extends captures choice ∧ Choice.AllExtend captures choices

def Enumerator.Rooted : Enumerator D K H → Prop
  | ⟨_, _, seed, _, frame, choices, _⟩ =>
    seed.Begins frame.captures ∧ Choice.AllExtend seed choices

end

theorem Choice.allExtend_iff {captures : Env D} {choices : List (Choice D K H)} :
    Choice.AllExtend captures choices ↔ ∀ choice ∈ choices, choice.Extends captures := by
  induction choices with
  | nil => simp [Choice.AllExtend]
  | cons choice choices ih => rw [Choice.AllExtend, ih, List.forall_mem_cons]

theorem Choice.extends_resume {captures : Env D} {frames : List (Frame D K H)}
    (each : ∀ frame ∈ frames, captures.Begins frame.captures) :
    ∀ choice ∈ frames.map Choice.resume, choice.Extends captures := by
  intro choice member
  rcases List.mem_map.mp member with ⟨frame, present, rfl⟩
  simp only [Choice.Extends]
  exact each frame present

namespace Enumerator

theorem rooted_iff {e : Enumerator D K H} :
    e.Rooted ↔ e.seed.Begins e.frame.captures ∧ ∀ choice ∈ e.choices, choice.Extends e.seed := by
  rcases e with ⟨root, pattern, seed, config, frame, choices, progress⟩
  rw [Rooted, Choice.allExtend_iff]

theorem rooted_seeded (root : D) (pattern : Pattern D K H) (seed : Env D) (config : MatchConfig) :
    (seeded root pattern seed config).Rooted :=
  rooted_iff.mpr ⟨.refl seed, fun _ member => absurd member List.not_mem_nil⟩

namespace Rooted

variable {e : Enumerator D K H}

theorem congr {e' : Enumerator D K H} (rooted : e.Rooted) (seed : e'.seed = e.seed)
    (captures : e'.frame.captures = e.frame.captures) (choices : e'.choices = e.choices) :
    e'.Rooted := by
  rw [rooted_iff, seed, captures, choices]
  exact rooted_iff.mp rooted

theorem drop (rooted : e.Rooted) (work : List (Task D K H)) : (e.drop work).Rooted :=
  rooted.congr rfl rfl rfl

theorem yield (rooted : e.Rooted) : e.yield.Rooted := rooted.congr rfl rfl rfl

theorem finish (rooted : e.Rooted) : e.finish.Rooted := rooted.congr rfl rfl rfl

theorem latest {choice : Choice D K H} {choices : List (Choice D K H)} (rooted : e.Rooted)
    (latest : e.choices = choice :: choices) : choice.Extends e.seed :=
  (rooted_iff.mp rooted).2 choice (latest ▸ List.mem_cons_self)

theorem pop {choice : Choice D K H} {choices : List (Choice D K H)} (rooted : e.Rooted)
    (latest : e.choices = choice :: choices) : (e.pop choices).Rooted := by
  rcases rooted_iff.mp rooted with ⟨live, each⟩
  exact rooted_iff.mpr ⟨live, fun other member => each other (latest ▸ List.mem_cons_of_mem _ member)⟩

theorem branch (rooted : e.Rooted) {live : Frame D K H} {others : List (Frame D K H)}
    (each : ∀ frame ∈ live :: others, e.seed.Begins frame.captures) :
    (e.branch live others).Rooted := by
  refine rooted_iff.mpr ⟨each live List.mem_cons_self, fun choice member => ?_⟩
  rcases List.mem_append.mp member with new | old
  · exact Choice.extends_resume (fun frame present => each frame (.tail _ present)) choice new
  · exact (rooted_iff.mp rooted).2 choice old

end Rooted

end Enumerator

theorem Leg.captures_exits (leg : Leg D K H) (captures : Env D) (marks : List D) :
    ∀ frame ∈ (leg.exits captures marks).1 :: (leg.exits captures marks).2,
      frame.captures = captures := by
  intro frame member
  cases marks with
  | nil =>
      rw [List.mem_singleton.mp member]
      rfl
  | cons mark marks =>
      rcases List.mem_cons.mp member with rfl | other
      · rfl
      · rcases List.mem_map.mp other with ⟨mark', _, rfl⟩
        rfl

theorem Enumerator.Rooted.adopt {e nested : Enumerator D K H} (rooted : e.Rooted)
    (inner : nested.Rooted) (seed : e.seed.Begins nested.seed) (leg : Leg D K H) :
    (e.adopt leg nested.yield).2.Rooted := by
  have tail : (Choice.tail leg nested.yield).Extends e.seed := by
    simp only [Choice.Extends]
    exact ⟨seed, inner.yield⟩
  have saved : ({ e with choices := .tail leg nested.yield :: e.choices } :
      Enumerator D K H).Rooted := by
    rcases rooted_iff.mp rooted with ⟨live, each⟩
    exact rooted_iff.mpr ⟨live, List.forall_mem_cons.mpr ⟨tail, each⟩⟩
  apply saved.branch
  intro frame member
  rw [Leg.captures_exits leg nested.frame.captures nested.frame.marks frame member]
  exact seed.trans (rooted_iff.mp inner).1

def Outcome.Extends (captures : Env D) : Outcome D K H → Prop
  | .proceed live others => ∀ frame ∈ live :: others, captures.Begins frame.captures
  | .fail | .abort _ | .descend _ _ _ => True

namespace Frame

theorem extends_one {captures : Env D} {frame : Frame D K H}
    (begins : captures.Begins frame.captures) : (Outcome.proceed frame []).Extends captures := by
  intro other member
  rw [List.mem_singleton.mp member]
  exact begins

theorem extends_ofBool (frame : Frame D K H) (holds : Bool) :
    (Outcome.ofBool frame holds).Extends frame.captures := by
  cases holds with
  | false => trivial
  | true => exact extends_one (.refl _)

theorem extends_matchChildren (frame : Frame D K H) (data : List D) (items : List (Pattern D K H)) :
    (frame.matchChildren data items).Extends frame.captures := by
  unfold matchChildren
  split
  · exact extends_one (.refl _)
  · trivial

theorem extends_follow (frame : Frame D K H) (datum : D) (steps : List (Pattern D K H))
    (step : Nat) : (frame.follow datum steps step).Extends frame.captures := by
  unfold follow
  split
  · exact extends_one (.refl _)
  · trivial

theorem extends_ofFrames {captures : Env D} {frames : List (Frame D K H)}
    (each : ∀ frame ∈ frames, captures.Begins frame.captures) :
    (Outcome.ofFrames frames).Extends captures := by
  cases frames with
  | nil => trivial
  | cons live others => exact each

variable [TreeLike D K] [BEq D] [BEq K]

theorem extends_apply (host : Host D K H) (config : MatchConfig) (frame : Frame D K H) (datum : D)
    (pattern : Pattern D K H) :
    (frame.apply host config datum pattern).Extends frame.captures := by
  cases pattern with
  | wild | and left right | mark => exact extends_one (.refl _)
  | atom value | ofKind kind => exact extends_ofBool frame _
  | capture name => exact extends_one (.bind _ _ _)
  | template name =>
      simp only [apply]
      cases frame.captures.get? name with
      | some bound => exact extends_ofBool frame _
      | none => cases config.strictTemplates <;> trivial
  | node kind items =>
      simp only [apply]
      split
      · exact extends_matchChildren frame _ items
      · trivial
  | contents items => exact extends_matchChildren frame _ items
  | or left right =>
      intro other member
      have side : other = frame.push [.ofPattern datum left] ∨
          other = frame.push [.ofPattern datum right] := by simpa [apply] using member
      rcases side with rfl | rfl <;> exact .refl _
  | path steps => exact extends_follow frame datum steps 0
  | window items =>
      refine extends_ofFrames ?_
      intro other member
      rcases List.mem_map.mp member with ⟨run, _, rfl⟩
      exact .refl _
  | test handle =>
      simp only [apply]
      cases host.test handle datum with
      | ok holds => exact extends_ofBool frame holds
      | error error => trivial
  | generate handle =>
      simp only [apply]
      cases host.generate handle frame.captures with
      | ok pattern => exact extends_one (.refl _)
      | error error => trivial

theorem extends_perform (host : Host D K H) (config : MatchConfig) (frame : Frame D K H)
    (task : Task D K H) : (frame.perform host config task).2.Extends frame.captures := by
  rcases task with ⟨datum, goal⟩
  cases goal with
  | pattern pattern => exact extends_apply host config frame datum pattern
  | path steps step => exact extends_follow frame datum steps step

theorem generate_perform {host : Host D K H} {config : MatchConfig} {frame : Frame D K H}
    {task : Task D K H} {handle : H} {env : Env D}
    (called : .generate handle env ∈ Event.calls (frame.perform host config task).1) :
    env = frame.captures := by
  rcases task with ⟨datum, goal⟩
  cases goal with
  | path steps step => cases called
  | pattern pattern =>
      cases pattern with
      | generate own =>
          rcases List.mem_singleton.mp called with ⟨⟩
          rfl
      | test own => cases List.mem_singleton.mp called
      | _ => cases called

end Frame

/-- Every enumeration that waits goes on from its seed, and so does the one that it waits for. A
step of a path that has just begun goes on from the bindings of the branch that came to it. -/
def Waiting.Linked : Enumerator D K H → List (Waiting D K H) → Prop
  | _, [] => True
  | inner, w :: waiting =>
    w.outer.Rooted ∧ w.outer.seed.Begins inner.seed ∧
      (w.origin = .first → inner.seed = w.outer.frame.captures) ∧ Linked w.outer waiting

theorem Waiting.Linked.congr {e e' : Enumerator D K H} {waiting : List (Waiting D K H)}
    (linked : Linked e waiting) (seed : e'.seed = e.seed) : Linked e' waiting := by
  cases waiting with
  | nil => trivial
  | cons w waiting =>
      rw [Linked, seed]
      exact linked

/-- In each enumeration of the search, whether it is active, waits, or is kept in a choice point,
the live branch and the saved ones go on from its seed. -/
structure Machine.Rooted (m : Machine D K H) : Prop where
  active : m.active.Rooted
  linked : Waiting.Linked m.active m.waiting

def Turn.Rooted : Turn D K H → Prop
  | .next m => m.Rooted
  | .halt _ e => e.Rooted

namespace Machine

theorem Rooted.outermost {m : Machine D K H} (rooted : m.Rooted) :
    m.outermost.Rooted ∧ m.outermost.seed.Begins m.active.seed := by
  rcases m with ⟨e, phase, waiting⟩
  induction waiting generalizing e phase with
  | nil => exact ⟨rooted.active, .refl _⟩
  | cons w waiting ih =>
      rcases rooted.linked with ⟨outer, seed, _, linked⟩
      rcases ih w.outer .working ⟨outer, linked⟩ with ⟨rooted, begins⟩
      rw [outermost_cons e phase .working]
      exact ⟨rooted, begins.trans seed⟩

theorem Rooted.live {m : Machine D K H} (rooted : m.Rooted) :
    m.outermost.seed.Begins m.active.frame.captures :=
  rooted.outermost.2.trans (Enumerator.rooted_iff.mp rooted.active).1

theorem Rooted.adopt {e : Enumerator D K H} {phase : Phase} {w : Waiting D K H}
    {waiting : List (Waiting D K H)} (rooted : Rooted ⟨e, phase, w :: waiting⟩) :
    Rooted ⟨(w.outer.adopt w.leg e.yield).2, .working, waiting⟩ := by
  rcases rooted.linked with ⟨outer, seed, _, linked⟩
  exact ⟨outer.adopt rooted.active seed _, linked.congr rfl⟩

theorem rooted_ask {e : Enumerator D K H} (rooted : e.Rooted) : (ask e []).Rooted :=
  ⟨rooted, trivial⟩

variable [TreeLike D K] [BEq D] [BEq K] {host : Host D K H}

theorem Turns.extends {e : Enumerator D K H} {work : List (Task D K H)}
    {calls : List (Event D K H)} {outcome : Outcome D K H}
    (turns : Turns host e work calls outcome) : outcome.Extends e.frame.captures := by
  rcases turns with ⟨task, _, performed⟩
  have extends_ := Frame.extends_perform host e.config (e.drop work).frame task
  rwa [performed] at extends_

theorem Step.rooted {m : Machine D K H} {events : List (Event D K H)} {turn : Turn D K H}
    (step : Step host m events turn) (rooted : m.Rooted) : turn.Rooted := by
  have live := (Enumerator.rooted_iff.mp rooted.active).1
  cases step with
  | proceed turns =>
      have each := fun frame member => live.trans (turns.extends frame member)
      exact ⟨rooted.active.branch each, rooted.linked.congr rfl⟩
  | fail turns => exact ⟨rooted.active.drop _, rooted.linked.congr rfl⟩
  | @abort e waiting work calls error turns =>
      have dropped : Rooted ⟨e.drop work, .working, waiting⟩ :=
        ⟨rooted.active.drop work, rooted.linked.congr rfl⟩
      exact dropped.outermost.1.finish
  | descend turns =>
      exact ⟨Enumerator.rooted_seeded _ _ _ _, rooted.active.drop _, live, fun _ => rfl,
        rooted.linked.congr rfl⟩
  | solved ready => exact rooted.active.yield
  | dangling ready dangles => exact rooted.adopt.outermost.1.finish
  | adopt ready leads => exact rooted.adopt
  | resume latest =>
      have resumed := rooted.active.latest latest
      simp only [Choice.Extends] at resumed
      have popped := (Enumerator.rooted_iff.mp (rooted.active.pop latest)).2
      exact ⟨Enumerator.rooted_iff.mpr ⟨resumed, popped⟩, rooted.linked.congr rfl⟩
  | reopen latest =>
      have reopened := rooted.active.latest latest
      simp only [Choice.Extends] at reopened
      exact ⟨reopened.2, rooted.active.pop latest, reopened.1, nofun, rooted.linked.congr rfl⟩
  | exhausted idle => exact rooted.active.finish
  | barren idle =>
      rcases rooted.linked with ⟨outer, _, _, linked⟩
      exact ⟨outer, linked⟩

/-- The states that a search comes to when its outermost enumeration, `fresh` at first, is asked for
its solutions again and again and may be reset in between. -/
inductive Reachable (host : Host D K H) (fresh : Enumerator D K H) : Machine D K H → Prop where
  | start : Reachable host fresh (.ask fresh [])
  | next {m m' : Machine D K H} {events : List (Event D K H)} (earlier : Reachable host fresh m)
      (now : m.step host = (events, .next m')) : Reachable host fresh m'
  | again {m : Machine D K H} {events : List (Event D K H)} {answer : Except MatchError Bool}
      {e : Enumerator D K H} (earlier : Reachable host fresh m)
      (now : m.step host = (events, .halt answer e)) : Reachable host fresh (.ask e [])
  | reset {e : Enumerator D K H} (earlier : Reachable host fresh (.ask e [])) :
      Reachable host fresh (.ask e.reset [])

theorem Reachable.rooted {fresh : Enumerator D K H} {m : Machine D K H}
    (reachable : Reachable host fresh m) (rooted : fresh.Rooted) : m.Rooted := by
  induction reachable with
  | start => exact rooted_ask rooted
  | next earlier now ih => exact (step_of_eq now).rooted ih
  | again earlier now ih => exact rooted_ask ((step_of_eq now).rooted ih)
  | reset earlier ih => exact rooted_ask (Enumerator.rooted_seeded _ _ _ _)

end Machine

end TreeQuery
