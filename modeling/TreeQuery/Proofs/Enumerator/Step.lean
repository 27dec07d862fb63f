import TreeQuery.Enumerator.Machine

/-! All that a step of the machine can do, one constructor for each kind of step. What holds of
every step is proved by cases on this relation. -/

namespace TreeQuery

variable {D K H : Type}

namespace Event

def calls (events : List (Event D K H)) : List (Call D H) := events.filterMap Event.call?

theorem calls_append (es fs : List (Event D K H)) : calls (es ++ fs) = calls es ++ calls fs :=
  List.filterMap_append

theorem calls_note (e : Enumerator D K H) (note : Note D K H) : calls (e.note note) = [] := by
  unfold Enumerator.note
  split <;> rfl

theorem calls_branchNotes (e : Enumerator D K H) (count : Nat) : calls (e.branchNotes count) = [] := by
  have silent (i : Nat) : calls (e.note (.choicePoint (e.choices.length + i + 1))) = [] :=
    calls_note e _
  simp only [calls] at silent
  simp only [calls, Enumerator.branchNotes, List.filterMap_flatMap, silent, List.flatMap_eq_nil_iff,
    implies_true]

end Event

namespace Enumerator

def drop (e : Enumerator D K H) (work : List (Task D K H)) : Enumerator D K H :=
  { e with frame := { e.frame with work } }

def pop (e : Enumerator D K H) (choices : List (Choice D K H)) : Enumerator D K H :=
  { e with choices }

def yield (e : Enumerator D K H) : Enumerator D K H := { e with progress := .yielded }

def finish (e : Enumerator D K H) : Enumerator D K H := { e with progress := .exhausted }

end Enumerator

namespace Machine

def Idle (m : Machine D K H) : Prop :=
  m.phase = .spent ∨ ∃ announce, m.phase = .retreating announce ∧ m.active.choices = []

def closing (m : Machine D K H) : List (Event D K H) :=
  if m.phase = .retreating true then m.active.note .exhausted else []

def Origin.giveUp (w : Waiting D K H) : Origin → List (Event D K H) × Bool
  | .first => (w.outer.note (.barrenStep w.leg.step), true)
  | .again announce => ([], announce)

theorem calls_adopt (e nested : Enumerator D K H) (leg : Leg D K H) :
    Event.calls (e.adopt leg nested).1 = [] :=
  Event.calls_branchNotes _ _

theorem notes_adopt_dangling {e nested : Enumerator D K H} {leg : Leg D K H} {config : MatchConfig}
    {error : MatchError} (dangles : leg.dangling? config nested.frame.marks = some error) :
    (e.adopt leg nested).1 = [] := by
  have unmarked : nested.frame.marks = [] := by
    unfold Leg.dangling? at dangles
    split at dangles
    · rename_i dangling
      simp only [Bool.and_eq_true, List.isEmpty_iff] at dangling
      exact dangling.1.2
    · cases dangles
  simp only [Enumerator.adopt, unmarked]
  rfl

theorem calls_closing (m : Machine D K H) : Event.calls m.closing = [] := by
  unfold closing
  split
  · exact Event.calls_note _ _
  · rfl

theorem calls_giveUp (w : Waiting D K H) : Event.calls (Origin.giveUp w w.origin).1 = [] := by
  cases w.origin with
  | first => exact Event.calls_note _ _
  | again announce => rfl

theorem found_dangling {e : Enumerator D K H} {w : Waiting D K H} {waiting : List (Waiting D K H)}
    {error : MatchError} (dangles : w.leg.dangling? w.outer.config e.frame.marks = some error) :
    found ⟨e, .working, w :: waiting⟩ =
      ([], .halt (.error error)
        (outermost ⟨(w.outer.adopt w.leg e.yield).2, .working, waiting⟩).finish) := by
  have silent : (w.outer.adopt w.leg e.yield).1 = [] := notes_adopt_dangling dangles
  simp only [Enumerator.yield] at silent
  simp only [found, dangles, silent]
  rfl

theorem found_adopt {e : Enumerator D K H} {w : Waiting D K H} {waiting : List (Waiting D K H)}
    (leads : w.leg.dangling? w.outer.config e.frame.marks = none) :
    found ⟨e, .working, w :: waiting⟩ =
      ((w.outer.adopt w.leg e.yield).1,
        .next ⟨(w.outer.adopt w.leg e.yield).2, .working, waiting⟩) := by
  simp only [found, leads]
  rfl

variable [TreeLike D K] [BEq D] [BEq K]

/-- What the task in front of a branch turns out to be, on a branch that is left with `work`. -/
def Turns (host : Host D K H) (e : Enumerator D K H) (work : List (Task D K H))
    (calls : List (Event D K H)) (outcome : Outcome D K H) : Prop :=
  ∃ task, e.frame.work = task :: work ∧
    (e.drop work).frame.perform host e.config task = (calls, outcome)

inductive Step (host : Host D K H) : Machine D K H → List (Event D K H) → Turn D K H → Prop where
  | proceed {e : Enumerator D K H} {waiting : List (Waiting D K H)} {work calls live others}
      (turns : Turns host e work calls (.proceed live others)) :
      Step host ⟨e, .working, waiting⟩ (calls ++ e.branchNotes others.length)
        (.next ⟨e.branch live others, .working, waiting⟩)
  | fail {e : Enumerator D K H} {waiting : List (Waiting D K H)} {work calls}
      (turns : Turns host e work calls .fail) :
      Step host ⟨e, .working, waiting⟩ calls (.next ⟨e.drop work, .retreating true, waiting⟩)
  | abort {e : Enumerator D K H} {waiting : List (Waiting D K H)} {work calls error}
      (turns : Turns host e work calls (.abort error)) :
      Step host ⟨e, .working, waiting⟩ calls
        (.halt (.error error) (outermost ⟨e.drop work, .working, waiting⟩).finish)
  | descend {e : Enumerator D K H} {waiting : List (Waiting D K H)} {work calls datum pattern leg}
      (turns : Turns host e work calls (.descend datum pattern leg)) :
      Step host ⟨e, .working, waiting⟩ (calls ++ e.note (.pathStep leg.step pattern))
        (.next (.ask (.seeded datum pattern e.frame.captures e.config)
          (⟨e.drop work, leg, .first⟩ :: waiting)))
  | solved {e : Enumerator D K H} (ready : e.frame.work = []) :
      Step host ⟨e, .working, []⟩ (e.note (.solution e.frame.captures))
        (.halt (.ok true) e.yield)
  | dangling {e : Enumerator D K H} {w : Waiting D K H} {waiting : List (Waiting D K H)} {error}
      (ready : e.frame.work = [])
      (dangles : w.leg.dangling? w.outer.config e.frame.marks = some error) :
      Step host ⟨e, .working, w :: waiting⟩ (e.note (.solution e.frame.captures))
        (.halt (.error error)
          (outermost ⟨(w.outer.adopt w.leg e.yield).2, .working, waiting⟩).finish)
  | adopt {e : Enumerator D K H} {w : Waiting D K H} {waiting : List (Waiting D K H)}
      (ready : e.frame.work = [])
      (leads : w.leg.dangling? w.outer.config e.frame.marks = none) :
      Step host ⟨e, .working, w :: waiting⟩
        (e.note (.solution e.frame.captures) ++ (w.outer.adopt w.leg e.yield).1)
        (.next ⟨(w.outer.adopt w.leg e.yield).2, .working, waiting⟩)
  | resume {e : Enumerator D K H} {waiting : List (Waiting D K H)} {announce frame choices}
      (latest : e.choices = .resume frame :: choices) :
      Step host ⟨e, .retreating announce, waiting⟩ (e.note (.backtrack choices.length))
        (.next ⟨{ e with frame, choices }, .working, waiting⟩)
  | reopen {e : Enumerator D K H} {waiting : List (Waiting D K H)} {announce leg nested choices}
      (latest : e.choices = .tail leg nested :: choices) :
      Step host ⟨e, .retreating announce, waiting⟩ (e.note (.backtrack choices.length))
        (.next (.ask nested (⟨e.pop choices, leg, .again announce⟩ :: waiting)))
  | exhausted {e : Enumerator D K H} {phase : Phase} (idle : Idle ⟨e, phase, []⟩) :
      Step host ⟨e, phase, []⟩ (closing ⟨e, phase, []⟩) (.halt (.ok false) e.finish)
  | barren {e : Enumerator D K H} {phase : Phase} {w : Waiting D K H}
      {waiting : List (Waiting D K H)} (idle : Idle ⟨e, phase, w :: waiting⟩) :
      Step host ⟨e, phase, w :: waiting⟩
        (closing ⟨e, phase, w :: waiting⟩ ++ (Origin.giveUp w w.origin).1)
        (.next ⟨w.outer, .retreating (Origin.giveUp w w.origin).2, waiting⟩)

variable {host : Host D K H}

theorem step_of_turns {e : Enumerator D K H} {work : List (Task D K H)}
    {calls : List (Event D K H)} {outcome : Outcome D K H} (waiting : List (Waiting D K H))
    (turns : Turns host e work calls outcome) :
    Machine.step host ⟨e, .working, waiting⟩ =
      (calls ++ (settle ⟨e.drop work, .working, waiting⟩ outcome).1,
        (settle ⟨e.drop work, .working, waiting⟩ outcome).2) := by
  rcases turns with ⟨task, front, performed⟩
  change Frame.perform host e.config { e.frame with work := work } task = _ at performed
  simp only [Machine.step, Machine.work, front, performed]
  rfl

theorem step_of_ready {e : Enumerator D K H} (waiting : List (Waiting D K H))
    (ready : e.frame.work = []) :
    Machine.step host ⟨e, .working, waiting⟩ =
      (e.note (.solution e.frame.captures) ++ (found ⟨e, .working, waiting⟩).1,
        (found ⟨e, .working, waiting⟩).2) := by
  simp only [Machine.step, Machine.work, ready]

theorem step_of_idle {m : Machine D K H} (idle : m.Idle) :
    m.step host = (m.closing ++ m.failed.1, m.failed.2) := by
  rcases m with ⟨e, phase, waiting⟩
  rcases idle with spent | ⟨announce, retreating, bottom⟩
  · cases spent
    rfl
  · cases retreating
    simp only [Machine.step, retreat, closing] at bottom ⊢
    rw [bottom]
    cases announce <;> rfl

theorem step_failed {m : Machine D K H} (idle : m.Idle) :
    Step host m (m.closing ++ m.failed.1) m.failed.2 := by
  rcases m with ⟨e, phase, waiting⟩
  cases waiting with
  | nil =>
      change Step host _ (_ ++ []) (.halt (.ok false) e.finish)
      rw [List.append_nil]
      exact .exhausted idle
  | cons w waiting =>
      rcases w with ⟨outer, leg, origin⟩
      cases origin with
      | first => exact .barren idle
      | again announce => exact .barren idle

theorem step_found {e : Enumerator D K H} (waiting : List (Waiting D K H))
    (ready : e.frame.work = []) :
    Step host ⟨e, .working, waiting⟩
      (e.note (.solution e.frame.captures) ++ (found ⟨e, .working, waiting⟩).1)
      (found ⟨e, .working, waiting⟩).2 := by
  cases waiting with
  | nil =>
      change Step host _ (_ ++ []) (.halt (.ok true) e.yield)
      rw [List.append_nil]
      exact .solved ready
  | cons w waiting =>
      cases dangles : w.leg.dangling? w.outer.config e.frame.marks with
      | some error =>
          rw [found_dangling dangles, List.append_nil]
          exact .dangling ready dangles
      | none =>
          rw [found_adopt dangles]
          exact .adopt ready dangles

theorem step_settle {e : Enumerator D K H} {work : List (Task D K H)}
    {calls : List (Event D K H)} {outcome : Outcome D K H} (waiting : List (Waiting D K H))
    (turns : Turns host e work calls outcome) :
    Step host ⟨e, .working, waiting⟩
      (calls ++ (settle ⟨e.drop work, .working, waiting⟩ outcome).1)
      (settle ⟨e.drop work, .working, waiting⟩ outcome).2 := by
  cases outcome with
  | proceed live others => exact .proceed turns
  | fail =>
      simp only [settle, List.append_nil]
      exact .fail turns
  | abort error =>
      simp only [settle, List.append_nil]
      exact .abort turns
  | descend datum pattern leg => exact .descend turns

theorem step_spec (host : Host D K H) (m : Machine D K H) :
    Step host m (m.step host).1 (m.step host).2 := by
  rcases m with ⟨e, phase, waiting⟩
  cases phase with
  | working =>
      cases front : e.frame.work with
      | nil =>
          rw [step_of_ready waiting front]
          exact step_found waiting front
      | cons task work =>
          have turns : Turns host e work _ _ := ⟨task, front, rfl⟩
          rw [step_of_turns waiting turns]
          exact step_settle waiting turns
  | retreating announce =>
      cases latest : e.choices with
      | nil =>
          have idle : Idle ⟨e, .retreating announce, waiting⟩ := .inr ⟨announce, rfl, latest⟩
          rw [step_of_idle idle]
          exact step_failed idle
      | cons choice choices =>
          simp only [step, retreat, latest]
          cases choice with
          | resume frame => exact .resume latest
          | tail leg nested => exact .reopen latest
  | spent =>
      have idle : Idle ⟨e, .spent, waiting⟩ := .inl rfl
      rw [step_of_idle idle]
      exact step_failed idle

theorem step_of_eq {m : Machine D K H} {events : List (Event D K H)} {turn : Turn D K H}
    (now : m.step host = (events, turn)) : Step host m events turn := by
  have step := step_spec host m
  rwa [now] at step

theorem eq_of_step {m : Machine D K H} {events : List (Event D K H)} {turn : Turn D K H}
    (step : Step host m events turn) : m.step host = (events, turn) := by
  cases step with
  | proceed turns => exact step_of_turns _ turns
  | fail turns =>
      rw [step_of_turns _ turns]
      simp only [settle, List.append_nil]
  | abort turns =>
      rw [step_of_turns _ turns]
      simp only [settle, List.append_nil]
      rfl
  | descend turns => exact step_of_turns _ turns
  | solved ready =>
      rw [step_of_ready _ ready]
      simp only [found, List.append_nil]
      rfl
  | dangling ready dangles =>
      rw [step_of_ready _ ready, found_dangling dangles, List.append_nil]
  | adopt ready leads =>
      rw [step_of_ready _ ready, found_adopt leads]
  | resume latest =>
      simp only [Machine.step, retreat, latest]
      rfl
  | reopen latest =>
      simp only [Machine.step, retreat, latest]
      rfl
  | exhausted idle =>
      rw [step_of_idle idle]
      simp only [failed, List.append_nil]
      rfl
  | @barren e phase w waiting idle =>
      rw [step_of_idle idle]
      rcases w with ⟨outer, leg, origin⟩
      cases origin <;> rfl

end Machine

end TreeQuery
