import TreeQuery.Proofs.Enumerator.Config

/-! The events of one search under two loggers. The calls are the same, and so are the notes where both
loggers write them anywhere. -/

namespace TreeQuery

variable {D K H : Type}

def Event.notes (events : List (Event D K H)) : List (Note D K H) := events.filterMap Event.note?

/-- Of all events of a search those that happen with the logger: a note is taken only if it is written
anywhere. -/
def Logger.heard (logger : Logger) (events : List (Event D K H)) : List (Event D K H) :=
  if logger.isActive then events else events.filter fun event => event.call?.isSome

def Echoes (logger logger' : Logger) (events events' : List (Event D K H)) : Prop :=
  ∃ all, events = logger.heard all ∧ events' = logger'.heard all

namespace Logger

theorem heard_append (logger : Logger) (es fs : List (Event D K H)) :
    logger.heard (es ++ fs) = logger.heard es ++ logger.heard fs := by
  unfold heard
  split
  · rfl
  · exact List.filter_append es fs

theorem heard_of_calls (logger : Logger) {events : List (Event D K H)}
    (calls : ∀ event ∈ events, event.call?.isSome) : logger.heard events = events := by
  unfold heard
  split
  · rfl
  · exact List.filter_eq_self.mpr calls

theorem calls_heard (logger : Logger) (events : List (Event D K H)) :
    Event.calls (logger.heard events) = Event.calls events := by
  unfold heard
  split
  · rfl
  · induction events with
    | nil => rfl
    | cons event events ih =>
        cases event with
        | called call => exact congrArg (call :: ·) ih
        | noted note => exact ih

theorem notes_heard {logger : Logger} (silent : logger.isActive = false)
    (events : List (Event D K H)) : Event.notes (logger.heard events) = [] := by
  rw [heard, silent, if_neg Bool.false_ne_true]
  induction events with
  | nil => rfl
  | cons event events ih => cases event <;> exact ih

theorem heard_note (e : Enumerator D K H) (note : Note D K H) :
    e.note note = e.config.logger.heard [.noted note] := by
  unfold Enumerator.note heard
  split <;> rfl

theorem heard_branchNotes (e : Enumerator D K H) (count : Nat) :
    e.branchNotes count = e.config.logger.heard
      ((List.range count).map fun i => .noted (.choicePoint (e.choices.length + i + 1))) := by
  unfold Enumerator.branchNotes
  induction List.range count with
  | nil => exact (heard_of_calls _ fun _ member => absurd member List.not_mem_nil).symm
  | cons i rest ih =>
      rw [List.flatMap_cons, ih, heard_note, List.map_cons, ← heard_append]
      rfl

end Logger

namespace Echoes

variable {logger logger' : Logger} {es es' fs fs' : List (Event D K H)}

theorem nil : Echoes logger logger' ([] : List (Event D K H)) [] :=
  have none : ∀ event ∈ ([] : List (Event D K H)), event.call?.isSome :=
    fun _ member => absurd member List.not_mem_nil
  ⟨[], (logger.heard_of_calls none).symm, (logger'.heard_of_calls none).symm⟩

theorem append (first : Echoes logger logger' es es') (second : Echoes logger logger' fs fs') :
    Echoes logger logger' (es ++ fs) (es' ++ fs') := by
  rcases first with ⟨all, rfl, rfl⟩
  rcases second with ⟨all', rfl, rfl⟩
  exact ⟨all ++ all', (logger.heard_append all all').symm, (logger'.heard_append all all').symm⟩

theorem symm (echoes : Echoes logger logger' es es') : Echoes logger' logger es' es := by
  rcases echoes with ⟨all, here, there⟩
  exact ⟨all, there, here⟩

theorem of_calls (calls : ∀ event ∈ es, event.call?.isSome) : Echoes logger logger' es es :=
  ⟨es, (logger.heard_of_calls calls).symm, (logger'.heard_of_calls calls).symm⟩

theorem calls (echoes : Echoes logger logger' es es') : Event.calls es' = Event.calls es := by
  rcases echoes with ⟨all, rfl, rfl⟩
  rw [logger.calls_heard, logger'.calls_heard]

theorem silent (echoes : Echoes logger logger' es es') (silent : logger.isActive = false) :
    Event.notes es = [] := by
  rcases echoes with ⟨all, rfl, rfl⟩
  exact Logger.notes_heard silent all

theorem same (echoes : Echoes logger logger' es es') (active : logger.isActive = true)
    (active' : logger'.isActive = true) : es' = es := by
  rcases echoes with ⟨all, rfl, rfl⟩
  rw [Logger.heard, Logger.heard, active, active']

variable {config config' : MatchConfig} {e : Enumerator D K H}

theorem note (own : e.config = config) (note : Note D K H) :
    Echoes config.logger config'.logger (e.note note) ((e.withConfig config').note note) := by
  refine ⟨[.noted note], ?_, ?_⟩
  · rw [Logger.heard_note, own]
  · rw [Logger.heard_note, Enumerator.config_withConfig]

theorem solution (own : e.config = config) :
    Echoes config.logger config'.logger (e.note (.solution e.frame.captures))
      ((e.withConfig config').note (.solution (e.withConfig config').frame.captures)) := by
  rw [Enumerator.frame_withConfig]
  exact note own _

theorem backtrack (own : e.config = config) (choices : List (Choice D K H)) :
    Echoes config.logger config'.logger (e.note (.backtrack choices.length))
      ((e.withConfig config').note
        (.backtrack (choices.map (Choice.withConfig config')).length)) := by
  rw [List.length_map]
  exact note own _

theorem branchNotes (own : e.config = config) (count : Nat) :
    Echoes config.logger config'.logger (e.branchNotes count)
      ((e.withConfig config').branchNotes count) := by
  refine ⟨(List.range count).map fun i => .noted (.choicePoint (e.choices.length + i + 1)), ?_, ?_⟩
  · rw [Logger.heard_branchNotes, own]
  · rw [Logger.heard_branchNotes, Enumerator.config_withConfig, Enumerator.choices_withConfig,
      List.length_map]

theorem adopt (own : e.config = config) (leg : Leg D K H) (nested : Enumerator D K H) :
    Echoes config.logger config'.logger (e.adopt leg nested).1
      ((e.withConfig config').adopt leg (nested.withConfig config')).1 := by
  let saved : Enumerator D K H := { e with choices := .tail leg nested :: e.choices }
  have notes : Echoes config.logger config'.logger _ _ :=
    branchNotes (e := saved) own (leg.exits nested.frame.captures nested.frame.marks).2.length
  simp only [Enumerator.withConfig_eq, saved, List.map_cons, Choice.withConfig] at notes
  simp only [Enumerator.adopt, Enumerator.withConfig_eq]
  exact notes

theorem closing {m : Machine D K H} (own : m.active.config = config) :
    Echoes config.logger config'.logger m.closing (m.withConfig config').closing := by
  unfold Machine.closing
  rw [Machine.withConfig]
  by_cases announces : m.phase = .retreating true
  · rw [if_pos announces, if_pos announces]
    exact note own .exhausted
  · rw [if_neg announces, if_neg announces]
    exact nil

theorem giveUp {w : Waiting D K H} (own : w.outer.config = config) :
    Echoes config.logger config'.logger (Machine.Origin.giveUp w w.origin).1
      (Machine.Origin.giveUp (w.withConfig config') (w.withConfig config').origin).1 := by
  rcases w with ⟨outer, leg, origin⟩
  cases origin with
  | first => exact note own (.barrenStep leg.step)
  | again announce => exact nil

end Echoes

theorem Frame.perform_calls [TreeLike D K] [BEq D] [BEq K] (host : Host D K H) (config : MatchConfig)
    (frame : Frame D K H) (task : Task D K H) :
    ∀ event ∈ (frame.perform host config task).1, event.call?.isSome := by
  rcases task with ⟨datum, goal⟩
  cases goal with
  | path steps step => exact fun _ member => absurd member List.not_mem_nil
  | pattern pattern =>
      cases pattern with
      | test handle | generate handle =>
          intro event member
          rw [List.mem_singleton.mp member]
          rfl
      | _ => exact fun _ member => absurd member List.not_mem_nil

namespace Machine

variable [TreeLike D K] [BEq D] [BEq K] {host : Host D K H}

theorem Turns.called {e : Enumerator D K H} {work : List (Task D K H)} {calls : List (Event D K H)}
    {outcome : Outcome D K H} (turns : Turns host e work calls outcome) :
    ∀ event ∈ calls, event.call?.isSome := by
  rcases turns with ⟨task, _, performed⟩
  have called := Frame.perform_calls host e.config (e.drop work).frame task
  rw [performed] at called
  exact called

/-- Under the options `config'` the machine makes the step too, with the same events apart from the
loggers. -/
def Mirrors (host : Host D K H) (config config' : MatchConfig) (m : Machine D K H)
    (events : List (Event D K H)) (turn : Turn D K H) : Prop :=
  ∃ events', Echoes config.logger config'.logger events events' ∧
    Step host (m.withConfig config') events' (turn.withConfig config')

variable {config config' : MatchConfig} {e : Enumerator D K H} {w : Waiting D K H}
  {waiting : List (Waiting D K H)} {work : List (Task D K H)} {calls : List (Event D K H)}

theorem mirrors_proceed {live : Frame D K H} {others : List (Frame D K H)} (own : e.config = config)
    (turns : Turns host (e.withConfig config') work calls (.proceed live others)) :
    Mirrors host config config' ⟨e, .working, waiting⟩ (calls ++ e.branchNotes others.length)
      (.next ⟨e.branch live others, .working, waiting⟩) := by
  refine ⟨calls ++ (e.withConfig config').branchNotes others.length, ?_, ?_⟩
  · exact .append (.of_calls turns.called) (.branchNotes own others.length)
  · rw [Turn.withConfig, withConfig_mk, withConfig_mk, Enumerator.withConfig_branch]
    exact .proceed turns

theorem mirrors_fail (turns : Turns host (e.withConfig config') work calls .fail) :
    Mirrors host config config' ⟨e, .working, waiting⟩ calls
      (.next ⟨e.drop work, .retreating true, waiting⟩) := by
  refine ⟨calls, .of_calls turns.called, ?_⟩
  rw [Turn.withConfig, withConfig_mk, withConfig_mk, Enumerator.withConfig_drop]
  exact .fail turns

theorem mirrors_abort {error : MatchError}
    (turns : Turns host (e.withConfig config') work calls (.abort error)) :
    Mirrors host config config' ⟨e, .working, waiting⟩ calls
      (.halt (.error error) (outermost ⟨e.drop work, .working, waiting⟩).finish) := by
  refine ⟨calls, .of_calls turns.called, ?_⟩
  rw [Turn.withConfig, Enumerator.withConfig_finish, ← outermost_withConfig, withConfig_mk,
    withConfig_mk, Enumerator.withConfig_drop]
  exact .abort turns

theorem mirrors_descend {datum : D} {pattern : Pattern D K H} {leg : Leg D K H}
    (own : e.config = config)
    (turns : Turns host (e.withConfig config') work calls (.descend datum pattern leg)) :
    Mirrors host config config' ⟨e, .working, waiting⟩ (calls ++ e.note (.pathStep leg.step pattern))
      (.next (.ask (.seeded datum pattern e.frame.captures e.config)
        (⟨e.drop work, leg, .first⟩ :: waiting))) := by
  refine ⟨calls ++ (e.withConfig config').note (.pathStep leg.step pattern), ?_, ?_⟩
  · exact .append (.of_calls turns.called) (.note own _)
  · have descends : Step host ⟨_, _, waiting.map (Waiting.withConfig config')⟩ _ _ := .descend turns
    rw [Enumerator.frame_withConfig, Enumerator.config_withConfig,
      ← Enumerator.withConfig_drop] at descends
    rw [Turn.withConfig, withConfig_mk, withConfig_ask, Enumerator.withConfig_seeded]
    exact descends

theorem mirrors_solved (own : e.config = config) (ready : e.frame.work = []) :
    Mirrors host config config' ⟨e, .working, []⟩ (e.note (.solution e.frame.captures))
      (.halt (.ok true) e.yield) := by
  refine ⟨_, .solution own, ?_⟩
  rw [Turn.withConfig, withConfig_mk, Enumerator.withConfig_yield]
  exact .solved (by rw [Enumerator.frame_withConfig, ready])

theorem mirrors_dangling {error : MatchError} (own : e.config = config) (ready : e.frame.work = [])
    (dangles : w.leg.dangling? config' e.frame.marks = some error) :
    Mirrors host config config' ⟨e, .working, w :: waiting⟩ (e.note (.solution e.frame.captures))
      (.halt (.error error)
        (outermost ⟨(w.outer.adopt w.leg e.yield).2, .working, waiting⟩).finish) := by
  refine ⟨_, .solution own, ?_⟩
  rw [Turn.withConfig, Enumerator.withConfig_finish, ← outermost_withConfig, withConfig_mk,
    withConfig_mk, Enumerator.withConfig_adopt, Enumerator.withConfig_yield]
  refine .dangling (w := w.withConfig config') ?_ ?_
  · rw [Enumerator.frame_withConfig, ready]
  · rw [Waiting.dangling?_withConfig, dangles]

theorem mirrors_adopt (own : e.config = config) (outer : w.outer.config = config)
    (ready : e.frame.work = []) (leads : w.leg.dangling? config' e.frame.marks = none) :
    Mirrors host config config' ⟨e, .working, w :: waiting⟩
      (e.note (.solution e.frame.captures) ++ (w.outer.adopt w.leg e.yield).1)
      (.next ⟨(w.outer.adopt w.leg e.yield).2, .working, waiting⟩) := by
  refine ⟨_, .append (.solution own) (.adopt outer w.leg e.yield), ?_⟩
  rw [Turn.withConfig, withConfig_mk, withConfig_mk, Enumerator.withConfig_adopt,
    Enumerator.withConfig_yield]
  refine .adopt (w := w.withConfig config') ?_ ?_
  · rw [Enumerator.frame_withConfig, ready]
  · rw [Waiting.dangling?_withConfig, leads]

theorem mirrors_resume {announce : Bool} {frame : Frame D K H} {choices : List (Choice D K H)}
    (own : e.config = config) (latest : e.choices = .resume frame :: choices) :
    Mirrors host config config' ⟨e, .retreating announce, waiting⟩ (e.note (.backtrack choices.length))
      (.next ⟨{ e with frame, choices }, .working, waiting⟩) := by
  refine ⟨_, .backtrack own choices, ?_⟩
  have latest' : (e.withConfig config').choices =
      .resume frame :: choices.map (Choice.withConfig config') := by
    rw [Enumerator.choices_withConfig, latest, List.map_cons, Choice.withConfig]
  have resumes : Step host ⟨_, .retreating announce, waiting.map (Waiting.withConfig config')⟩ _ _ :=
    .resume latest'
  rw [Turn.withConfig, withConfig_mk, withConfig_mk]
  simp only [Enumerator.withConfig_eq] at resumes ⊢
  exact resumes

theorem mirrors_reopen {announce : Bool} {leg : Leg D K H} {nested : Enumerator D K H}
    {choices : List (Choice D K H)} (own : e.config = config)
    (latest : e.choices = .tail leg nested :: choices) :
    Mirrors host config config' ⟨e, .retreating announce, waiting⟩ (e.note (.backtrack choices.length))
      (.next (.ask nested (⟨e.pop choices, leg, .again announce⟩ :: waiting))) := by
  refine ⟨_, .backtrack own choices, ?_⟩
  have latest' : (e.withConfig config').choices =
      .tail leg (nested.withConfig config') :: choices.map (Choice.withConfig config') := by
    rw [Enumerator.choices_withConfig, latest, List.map_cons, Choice.withConfig]
  have reopens : Step host ⟨_, .retreating announce, waiting.map (Waiting.withConfig config')⟩ _ _ :=
    .reopen latest'
  rw [← Enumerator.withConfig_pop] at reopens
  rw [Turn.withConfig, withConfig_mk, withConfig_ask]
  exact reopens

theorem mirrors_exhausted {phase : Phase} (own : e.config = config) (idle : Idle ⟨e, phase, []⟩) :
    Mirrors host config config' ⟨e, phase, []⟩ (closing ⟨e, phase, []⟩) (.halt (.ok false) e.finish) := by
  refine ⟨_, .closing own, ?_⟩
  rw [Turn.withConfig, Enumerator.withConfig_finish]
  exact .exhausted (idle.withConfig config')

theorem mirrors_barren {phase : Phase} (own : e.config = config) (outer : w.outer.config = config)
    (idle : Idle ⟨e, phase, w :: waiting⟩) :
    Mirrors host config config' ⟨e, phase, w :: waiting⟩
      (closing ⟨e, phase, w :: waiting⟩ ++ (Origin.giveUp w w.origin).1)
      (.next ⟨w.outer, .retreating (Origin.giveUp w w.origin).2, waiting⟩) := by
  refine ⟨_, .append (.closing own) (.giveUp outer), ?_⟩
  have same : (Origin.giveUp (w.withConfig config') (w.withConfig config').origin).2 =
      (Origin.giveUp w w.origin).2 := by
    rcases w with ⟨outer, leg, origin⟩
    cases origin <;> rfl
  rw [Turn.withConfig, withConfig_mk, withConfig_mk, ← same]
  exact .barren (idle.withConfig config')

end Machine

end TreeQuery
