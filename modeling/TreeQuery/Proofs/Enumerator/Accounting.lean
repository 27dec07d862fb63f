import TreeQuery.Proofs.Enumerator.Echo
import TreeQuery.Proofs.Enumerator.Rests

/-! An account of the choice points of a search. The notes say when one is made and when the search goes
back to one. The choice point for the further solutions of a step is made without a note of its own, but
a solution of the step is noted just before. -/

namespace TreeQuery

variable {D K H : Type}

mutual

def Choice.alive : Choice D K H → Nat
  | .resume _ => 1
  | .tail _ nested => 1 + Enumerator.alive nested

def Choice.allAlive : List (Choice D K H) → Nat
  | [] => 0
  | choice :: choices => Choice.alive choice + Choice.allAlive choices

/-- The number of choice points of an enumeration and of all enumerations that are kept in them. -/
def Enumerator.alive : Enumerator D K H → Nat
  | ⟨_, _, _, _, _, choices, _⟩ => Choice.allAlive choices

end

def Machine.alive (m : Machine D K H) : Nat :=
  m.active.alive + total (fun w => w.outer.alive) m.waiting

namespace Note

def isChoicePoint : Note D K H → Bool
  | choicePoint _ => true
  | _ => false

def isBacktrack : Note D K H → Bool
  | backtrack _ => true
  | _ => false

def isSolution : Note D K H → Bool
  | solution _ => true
  | _ => false

/-- By how much the number of choice points grows. A solution counts as the choice point for the
solutions after it. -/
def gain : Note D K H → Int
  | choicePoint _ | solution _ => 1
  | backtrack _ => -1
  | pathStep _ _ | barrenStep _ | exhausted => 0

end Note

namespace Event

def count (kind : Note D K H → Bool) (events : List (Event D K H)) : Nat := (notes events).countP kind

def gain (events : List (Event D K H)) : Int :=
  count Note.isChoicePoint events + count Note.isSolution events - count Note.isBacktrack events

theorem notes_append (es fs : List (Event D K H)) : notes (es ++ fs) = notes es ++ notes fs :=
  List.filterMap_append

theorem notes_of_calls {events : List (Event D K H)} (calls : ∀ event ∈ events, event.call?.isSome) :
    notes events = [] := by
  refine List.filterMap_eq_nil_iff.mpr fun event member => ?_
  cases event with
  | called call => rfl
  | noted note => cases calls _ member

theorem count_append (kind : Note D K H → Bool) (es fs : List (Event D K H)) :
    count kind (es ++ fs) = count kind es + count kind fs := by
  rw [count, notes_append, List.countP_append]
  rfl

theorem gain_append (es fs : List (Event D K H)) : gain (es ++ fs) = gain es + gain fs := by
  simp only [gain, count_append]
  omega

theorem gain_of_calls {events : List (Event D K H)} (calls : ∀ event ∈ events, event.call?.isSome) :
    gain events = 0 := by
  simp only [gain, count, notes_of_calls calls]
  rfl

theorem gain_note {e : Enumerator D K H} (writes : e.config.logger.isActive = true)
    (note : Note D K H) : gain (e.note note) = note.gain := by
  rw [Enumerator.note, if_pos writes]
  cases note <;> rfl

theorem gain_branchNotes {e : Enumerator D K H} (writes : e.config.logger.isActive = true)
    (count : Nat) : gain (e.branchNotes count) = count := by
  induction count with
  | zero => rfl
  | succ count ih =>
      rw [Enumerator.branchNotes, List.range_succ, List.flatMap_append, gain_append]
      rw [List.flatMap_singleton, gain_note writes]
      exact congrArg (· + 1) ih

end Event

theorem Choice.allAlive_eq (choices : List (Choice D K H)) :
    Choice.allAlive choices = total Choice.alive choices := by
  induction choices with
  | nil => rfl
  | cons choice choices ih => rw [allAlive, ih, total_cons]

namespace Enumerator

theorem alive_eq (e : Enumerator D K H) : e.alive = total Choice.alive e.choices := by
  rcases e with ⟨root, pattern, seed, config, frame, choices, progress⟩
  rw [alive, Choice.allAlive_eq]

theorem alive_congr {e e' : Enumerator D K H} (same : e'.choices = e.choices) : e'.alive = e.alive := by
  rw [alive_eq, alive_eq, same]

theorem alive_seeded (root : D) (pattern : Pattern D K H) (seed : Env D) (config : MatchConfig) :
    (seeded root pattern seed config).alive = 0 := by
  rw [alive_eq]
  rfl

theorem alive_branch (e : Enumerator D K H) (live : Frame D K H) (others : List (Frame D K H)) :
    (e.branch live others).alive = e.alive + others.length := by
  have each : total Choice.alive (others.map .resume : List (Choice D K H)) = others.length := by
    induction others with
    | nil => rfl
    | cons frame others ih =>
        rw [List.map_cons, total_cons, ih, Choice.alive, List.length_cons, Nat.add_comm]
  rw [alive_eq, alive_eq, branch, total_append, each, Nat.add_comm]

theorem alive_adopt (e nested : Enumerator D K H) (leg : Leg D K H) :
    (e.adopt leg nested).2.alive =
      e.alive + nested.alive + 1 +
        (leg.exits nested.frame.captures nested.frame.marks).2.length := by
  have saved : ({ e with choices := .tail leg nested :: e.choices } : Enumerator D K H).alive =
      e.alive + nested.alive + 1 := by
    rw [alive_eq, alive_eq e, total_cons, Choice.alive]
    omega
  rw [adopt, alive_branch, saved]

theorem alive_pop {e : Enumerator D K H} {choice : Choice D K H} {choices : List (Choice D K H)}
    (latest : e.choices = choice :: choices) : e.alive = (e.pop choices).alive + choice.alive := by
  rw [alive_eq, alive_eq, latest, total_cons, Nat.add_comm]
  rfl

theorem Sound.writes {config : MatchConfig} {e : Enumerator D K H} (sound : e.Sound config)
    (writes : config.logger.isActive = true) : e.config.logger.isActive = true := by
  rw [sound.options, writes]

end Enumerator

/-- The number of choice points after a turn is the one before it and what the notes say. An
enumeration counts the solution that it has given away, for which it has no choice point. -/
def Turn.Accounted (before : Nat) (events : List (Event D K H)) : Turn D K H → Prop
  | .next m => (m.alive : Int) = before + Event.gain events
  | .halt (.ok found) e => (e.alive : Int) + found.toNat = before + Event.gain events
  | .halt (.error _) _ => True

namespace Machine

theorem gain_closing {m : Machine D K H} (writes : m.active.config.logger.isActive = true) :
    Event.gain m.closing = 0 := by
  unfold closing
  split
  · exact Event.gain_note writes _
  · rfl

theorem gain_giveUp {w : Waiting D K H} (writes : w.outer.config.logger.isActive = true) :
    Event.gain (Origin.giveUp w w.origin).1 = 0 := by
  cases w.origin with
  | first => exact Event.gain_note writes _
  | again announce => rfl

theorem gain_adopt {e : Enumerator D K H} (writes : e.config.logger.isActive = true)
    (nested : Enumerator D K H) (leg : Leg D K H) :
    Event.gain (e.adopt leg nested).1 =
      (leg.exits nested.frame.captures nested.frame.marks).2.length := by
  let saved : Enumerator D K H := { e with choices := .tail leg nested :: e.choices }
  exact Event.gain_branchNotes (e := saved) writes _

theorem Idle.alive_eq_zero {config : MatchConfig} {e : Enumerator D K H} {phase : Phase}
    {w : Waiting D K H} {waiting : List (Waiting D K H)} (idle : Idle ⟨e, phase, w :: waiting⟩)
    (sound : Sound config ⟨e, phase, w :: waiting⟩) : e.alive = 0 := by
  rcases idle with spent | ⟨_, _, bottom⟩
  · exact absurd spent (sound.busy (List.cons_ne_nil w waiting))
  · rw [Enumerator.alive_eq, bottom]
    rfl

variable [TreeLike D K] [BEq D] [BEq K] {host : Host D K H} {config : MatchConfig}

theorem Turns.gain {e : Enumerator D K H} {work : List (Task D K H)} {calls : List (Event D K H)}
    {outcome : Outcome D K H} (turns : Turns host e work calls outcome) : Event.gain calls = 0 :=
  Event.gain_of_calls turns.called

theorem Step.accounted {m : Machine D K H} {events : List (Event D K H)} {turn : Turn D K H}
    (step : Step host m events turn) (sound : m.Sound config)
    (writes : config.logger.isActive = true) : turn.Accounted m.alive events := by
  have own := sound.active.writes writes
  cases step with
  | @proceed e waiting work calls live others turns =>
      simp only [Turn.Accounted, alive, Event.gain_append, turns.gain, Event.gain_branchNotes own,
        Enumerator.alive_branch]
      omega
  | @fail e waiting work calls turns =>
      have same : (e.drop work).alive = e.alive := Enumerator.alive_congr rfl
      simp only [Turn.Accounted, alive, turns.gain, same]
      omega
  | abort turns => trivial
  | @descend e waiting work calls datum pattern leg turns =>
      have same : (e.drop work).alive = e.alive := Enumerator.alive_congr rfl
      simp only [Turn.Accounted, ask, alive, total_cons, Enumerator.alive_seeded,
        same, Event.gain_append, turns.gain, Event.gain_note own, Note.gain]
      omega
  | @solved e ready =>
      have same : e.yield.alive = e.alive := Enumerator.alive_congr rfl
      simp only [Turn.Accounted, alive, same, Event.gain_note own, Note.gain]
      rfl
  | dangling ready dangles => trivial
  | @adopt e w waiting ready leads =>
      rcases List.forall_mem_cons.mp sound.waiting with ⟨⟨_, outer⟩, _⟩
      have other := outer.writes writes
      have same : e.yield.alive = e.alive := Enumerator.alive_congr rfl
      -- The note of the solution stands for the choice point that now keeps the enumeration.
      simp only [Turn.Accounted, alive, total_cons, Enumerator.alive_adopt, same,
        Event.gain_append, Event.gain_note own, gain_adopt other, Note.gain]
      omega
  | @resume e waiting announce frame choices latest =>
      have same : ({ e with frame, choices } : Enumerator D K H).alive = (e.pop choices).alive :=
        Enumerator.alive_congr rfl
      have taken := Enumerator.alive_pop latest
      rw [Choice.alive] at taken
      simp only [Turn.Accounted, alive, same, Event.gain_note own, Note.gain]
      omega
  | @reopen e waiting announce leg nested choices latest =>
      -- What the enumeration inside still has counts on, as part of the active one.
      have taken := Enumerator.alive_pop latest
      rw [Choice.alive] at taken
      simp only [Turn.Accounted, ask, alive, total_cons, Event.gain_note own,
        Note.gain]
      omega
  | @exhausted e phase idle =>
      have same : e.finish.alive = e.alive := Enumerator.alive_congr rfl
      simp only [Turn.Accounted, alive, same, gain_closing own]
      rfl
  | @barren e phase w waiting idle =>
      rcases List.forall_mem_cons.mp sound.waiting with ⟨⟨_, outer⟩, _⟩
      have other := outer.writes writes
      simp only [Turn.Accounted, alive, total_cons, idle.alive_eq_zero sound,
        Event.gain_append, gain_closing own, gain_giveUp other]
      omega

theorem Halts.accounted {m : Machine D K H} {reply : Reply D K H (Except MatchError Bool)}
    {found : Bool} (halts : Halts host m reply) (answer : reply.answer = .ok found)
    (sound : m.Sound config) (writes : config.logger.isActive = true) :
    (reply.enumerator.alive : Int) + found.toNat = m.alive + Event.gain reply.events := by
  induction halts with
  | halt now =>
      cases answer
      exact (step_of_eq now).accounted sound writes
  | @next m m' events reply now later ih =>
      have step := step_of_eq now
      have first := step.accounted sound writes
      have rest := ih answer (step.sound sound)
      simp only [Turn.Accounted] at first
      simp only [Reply.after, Event.gain_append]
      omega

end Machine

def Reply.isSolution (reply : Reply D K H (Except MatchError (Option (Env D)))) : Bool :=
  match reply.answer with
  | .ok (some _) => true
  | _ => false

variable [TreeLike D K] [BEq D] [BEq K] {host : Host D K H} {config : MatchConfig}

namespace Enumerator

theorem Answers.accounted {e : Enumerator D K H}
    {replies : List (Reply D K H (Except MatchError (Option (Env D))))}
    (answers : Answers host e replies) (sound : e.Sound config)
    (writes : config.logger.isActive = true)
    (fine : ∀ reply ∈ replies, ∀ error, reply.answer ≠ .error error) :
    ((e.leftBy replies).alive : Int) + replies.countP Reply.isSolution =
      e.alive + Event.gain (replies.flatMap Reply.events) := by
  induction answers with
  | nil e => rfl
  | @cons e own later now rest ih =>
      rcases List.forall_mem_cons.mp fine with ⟨here, others⟩
      have left := ((reachable_of_halts now .start).sound sound).active
      have after := ih left others
      cases answer : own.answer with
      | error error => exact absurd (Reply.withBindings_eq_error.mpr answer) (here error)
      | ok found =>
          have first := now.accounted answer (Machine.sound_ask sound) writes
          have asked : (Machine.ask e []).alive = e.alive := rfl
          have counted : own.withBindings.isSolution = found := by
            rw [Reply.isSolution, Reply.withBindings, answer]
            cases found <;> rfl
          have events : own.withBindings.events = own.events := rfl
          rw [leftBy, List.foldl_cons, List.countP_cons, counted, List.flatMap_cons,
            Event.gain_append, events]
          change ((own.enumerator.leftBy later).alive : Int) + _ = _
          have unit : (if found = true then 1 else 0) = found.toNat := by cases found <;> rfl
          rw [unit]
          omega

end Enumerator

/-- No choice point is lost, and none is gone back to twice. As long as there is no error, the choice
points of an enumeration, those of the enumerations kept in them included, are as many as have been
noted when they were made, and one for each solution of a step, less those that the search has gone back
to. At the end of the enumeration there are none. -/
theorem alive_findWith (host : Host D K H) (datum : D) (pattern : Pattern D K H)
    {config : MatchConfig} (writes : config.logger.isActive = true) {fuel count : Nat}
    {replies : List (Reply D K H (Except MatchError (Option (Env D))))}
    (returned : (findWith datum pattern config).advances host fuel count = some replies)
    (fine : ∀ reply ∈ replies, ∀ error, reply.answer ≠ .error error) :
    let events := replies.flatMap Reply.events
    let made := Event.count Note.isChoicePoint events
    let backtracks := Event.count Note.isBacktrack events
    let solutions := Event.count Note.isSolution events
    let given := replies.countP Reply.isSolution
    (((findWith datum pattern config).leftBy replies).alive : Int) =
        made + (solutions - given) - backtracks ∧
      ((∃ reply ∈ replies, reply.answer = .ok none) →
        (backtracks : Int) = made + solutions - given) := by
  intro events made backtracks solutions given
  have fresh : (findWith datum pattern config).Sound config :=
    Enumerator.sound_seeded datum pattern .empty config
  have answers := (Enumerator.answers_of_advances returned).1
  have none : (findWith datum pattern config).alive = 0 :=
    Enumerator.alive_seeded datum pattern .empty config
  have account : (((findWith datum pattern config).leftBy replies).alive : Int) =
      made + (solutions - given) - backtracks := by
    have whole : (((findWith datum pattern config).leftBy replies).alive : Int) + given =
        (findWith datum pattern config).alive + Event.gain events :=
      answers.accounted fresh writes fine
    rw [none, Event.gain] at whole
    omega
  refine ⟨account, fun ended => ?_⟩
  have settled := (answers.rests .fresh).settled fresh
    (Enumerator.settled_seeded datum pattern .empty config)
  rw [List.nil_append] at settled
  have bottom : ((findWith datum pattern config).leftBy replies).choices = [] := by
    rcases ended with ⟨reply, member, last⟩
    have answered : .ok .none ∈ replies.map Reply.answer := List.mem_map.mpr ⟨reply, member, last⟩
    rcases settled.exhausted (settled.ended answered) with bottom | ⟨error, raised⟩
    · exact bottom
    · rcases List.mem_map.mp raised with ⟨reply, member, failed⟩
      exact absurd failed (fine reply member error)
  rw [Enumerator.alive_eq, bottom] at account
  rw [total_nil] at account
  omega

theorem alive_findWith_children :
    let host : Host Tree String Unit := ⟨fun _ _ => .ok true, fun _ _ => .ok .wild⟩
    let root : Tree := .list [.int 1, .int 2]
    let pattern : Pattern Tree String Unit := .path [.window [.mark], .capture "x"]
    let fresh := findWith root pattern ⟨false, false, ⟨.stderr⟩⟩
    (∃ replies, fresh.advances host 20 1 = some replies ∧ (fresh.leftBy replies).alive = 3) ∧
    ∃ replies, fresh.advances host 20 3 = some replies ∧
      (Event.count Note.isBacktrack (replies.flatMap Reply.events) : Int) =
        Event.count Note.isChoicePoint (replies.flatMap Reply.events) +
          Event.count Note.isSolution (replies.flatMap Reply.events) -
          replies.countP Reply.isSolution := by
  intro host root pattern fresh
  constructor
  · have evaluated : (fresh.advances host 20 1).map (fun replies =>
        (replies.map Reply.solves?,
          Event.count Note.isChoicePoint (replies.flatMap Reply.events),
          Event.count Note.isSolution (replies.flatMap Reply.events),
          Event.count Note.isBacktrack (replies.flatMap Reply.events),
          replies.countP Reply.isSolution)) = some ([some true], 1, 3, 0, 1) := by decide
    rcases Option.map_eq_some_iff.mp evaluated with ⟨replies, returned, all⟩
    simp only [Prod.mk.injEq] at all
    rcases all with ⟨shown, made, solutions, backtracks, given⟩
    have account := (alive_findWith host root pattern rfl returned
      (Reply.forall_ne_error shown (by decide))).1
    rw [made, solutions, backtracks, given] at account
    exact ⟨replies, returned, Int.ofNat.inj account⟩
  · have evaluated : (fresh.advances host 20 3).map (List.map Reply.solves?) =
        some [some true, some true, some false] := by decide
    rcases Option.map_eq_some_iff.mp evaluated with ⟨replies, returned, shown⟩
    have ended := Reply.exists_ended shown (by decide)
    exact ⟨replies, returned, (alive_findWith host root pattern rfl returned
      (Reply.forall_ne_error shown (by decide))).2 ended⟩

end TreeQuery
