import Mathlib.Data.List.Forall2
import TreeQuery.Proofs.Enumerator.Reset
import TreeQuery.Proofs.Enumerator.Strictness

/-! Searches whose options differ in the logger alone. They go the same way step by step, so the logger
decides which notes are taken and nothing else. -/

namespace TreeQuery

variable {D K H : Type}

namespace MatchConfig

def withLogger (config : MatchConfig) (logger : Logger) : MatchConfig := { config with logger }

theorem withLogger_relaxes (config : MatchConfig) (logger logger' : Logger) :
    (config.withLogger logger').Relaxes (config.withLogger logger) := ⟨id, id⟩

end MatchConfig

/-- What a search does under two loggers. It makes the same calls; it takes no note for a logger that
discards them, and takes the same notes at the same points for any two that do not. -/
structure Transparent (logger logger' : Logger) (events events' : List (Event D K H)) : Prop where
  calls : Event.calls events' = Event.calls events
  silent : logger.target = .discard → Event.notes events = []
  silent' : logger'.target = .discard → Event.notes events' = []
  alike : logger.target ≠ .discard → logger'.target ≠ .discard → events' = events

theorem Logger.isActive_iff (logger : Logger) : logger.isActive = true ↔ logger.target ≠ .discard :=
  bne_iff_ne

theorem Logger.not_isActive_iff (logger : Logger) :
    logger.isActive = false ↔ logger.target = .discard := by
  rw [← Bool.not_eq_true, isActive_iff, Decidable.not_not]

theorem Echoes.transparent {logger logger' : Logger} {events events' : List (Event D K H)}
    (echoes : Echoes logger logger' events events') : Transparent logger logger' events events' where
  calls := echoes.calls
  silent discards := echoes.silent (logger.not_isActive_iff.mpr discards)
  silent' discards := echoes.symm.silent (logger'.not_isActive_iff.mpr discards)
  alike writes writes' :=
    echoes.same (logger.isActive_iff.mpr writes) (logger'.isActive_iff.mpr writes')

theorem rel_map {α β γ δ : Type} {R : α → β → Prop} {S : γ → δ → Prop} {f : α → γ} {g : β → δ}
    {x : Option α} {y : Option β} (related : Option.Rel R x y) (step : ∀ a b, R a b → S (f a) (g b)) :
    Option.Rel S (x.map f) (y.map g) := by
  cases related with
  | some own => exact .some (step _ _ own)
  | none => exact .none

theorem rel_imp {α β : Type} {R S : α → β → Prop} {x : Option α} {y : Option β}
    (related : Option.Rel R x y) (weaken : ∀ a b, R a b → S a b) : Option.Rel S x y := by
  cases related with
  | some own => exact .some (weaken _ _ own)
  | none => exact .none

theorem rel_bind {α β γ δ : Type} {R : α → β → Prop} {S : γ → δ → Prop} {f : α → Option γ}
    {g : β → Option δ} {x : Option α} {y : Option β} (related : Option.Rel R x y)
    (step : ∀ a b, R a b → Option.Rel S (f a) (g b)) : Option.Rel S (x.bind f) (y.bind g) := by
  cases related with
  | some own => exact step _ _ own
  | none => exact .none

variable [TreeLike D K] [BEq D] [BEq K]

def Machine.trace (host : Host D K H) : Nat → Machine D K H → List (Event D K H)
  | 0, _ => []
  | count + 1, m =>
    match m.step host with
    | (events, .next m') => events ++ Machine.trace host count m'
    | (events, .halt _ _) => events

variable {host : Host D K H} {config : MatchConfig} {logger : Logger} (logger' : Logger)

namespace Machine

theorem step_withLogger {m : Machine D K H} {events : List (Event D K H)} {turn : Turn D K H}
    (now : m.step host = (events, turn)) (uniform : m.withConfig (config.withLogger logger) = m) :
    ∃ events', Echoes logger logger' events events' ∧
      (m.withConfig (config.withLogger logger')).step host =
        (events', turn.withConfig (config.withLogger logger')) := by
  have relaxes := config.withLogger_relaxes logger logger'
  rcases (step_of_eq now).relaxed uniform relaxes with ⟨events', echoes, step⟩ | raised
  · exact ⟨events', echoes, eq_of_step step⟩
  · rcases raised with ⟨error, e, _, _, raised, _⟩
    exact absurd (config.withLogger_relaxes logger' logger) raised.not_relaxes

theorem trace_withLogger (count : Nat) {m : Machine D K H}
    (uniform : m.withConfig (config.withLogger logger) = m) :
    Echoes logger logger' (m.trace host count)
      ((m.withConfig (config.withLogger logger')).trace host count) := by
  induction count generalizing m with
  | zero => exact .nil
  | succ count ih =>
      rcases now : m.step host with ⟨events, turn⟩
      rcases step_withLogger logger' now uniform with ⟨events', echoes, now'⟩
      rw [trace, trace, now, now']
      cases turn with
      | next m' => exact echoes.append (ih (uniform_next now uniform))
      | halt answer e => exact echoes

end Machine

structure Reply.Echoed (config : MatchConfig) (logger logger' : Logger) {α : Type}
    (reply other : Reply D K H α) : Prop where
  answer : other.answer = reply.answer
  events : Echoes logger logger' reply.events other.events
  state : other.enumerator = reply.enumerator.withConfig (config.withLogger logger')
  uniform : reply.enumerator.withConfig (config.withLogger logger) = reply.enumerator

theorem Machine.run_withLogger (fuel : Nat) {m : Machine D K H} {log log' : Array (Event D K H)}
    (uniform : m.withConfig (config.withLogger logger) = m)
    (logged : Echoes logger logger' log.toList log'.toList) :
    Option.Rel (Reply.Echoed config logger logger') (Machine.run host fuel m log)
      (Machine.run host fuel (m.withConfig (config.withLogger logger')) log') := by
  induction fuel generalizing m log log' with
  | zero => exact .none
  | succ fuel ih =>
      rcases now : m.step host with ⟨events, turn⟩
      rcases step_withLogger logger' now uniform with ⟨events', echoes, now'⟩
      cases turn with
      | next m' =>
          rw [run_next now, run_next now']
          apply ih (uniform_next now uniform)
          simp only [Array.appendList_eq_append, Array.toList_appendList]
          exact logged.append echoes
      | halt answer e =>
          rw [run_halt now, run_halt now']
          exact .some ⟨rfl, logged.append echoes, rfl, (Turn.halt.inj (uniform_step now uniform)).2⟩

namespace Enumerator

variable {e : Enumerator D K H}

theorem advance_withLogger (fuel : Nat)
    (uniform : e.withConfig (config.withLogger logger) = e) :
    Option.Rel (Reply.Echoed config logger logger') (e.advance host fuel)
      ((e.withConfig (config.withLogger logger')).advance host fuel) := by
  have runs : Option.Rel (Reply.Echoed config logger logger') (e.solve host fuel)
      ((e.withConfig (config.withLogger logger')).solve host fuel) := by
    rw [solve, solve, ← Machine.withConfig_ask_nil]
    exact Machine.run_withLogger logger' fuel (Machine.uniform_ask uniform) .nil
  rw [advance_eq, advance_eq]
  apply rel_map runs
  intro own other echoed
  refine ⟨?_, echoed.events, echoed.state, echoed.uniform⟩
  simp only [Reply.withBindings, echoed.answer, echoed.state, frame_withConfig]

theorem serve_withLogger (fuel : Nat) (request : Request)
    (uniform : e.withConfig (config.withLogger logger) = e) :
    Option.Rel (Reply.Echoed config logger logger') (e.serve host fuel request)
      ((e.withConfig (config.withLogger logger')).serve host fuel request) := by
  by_cases reset : request = .reset
  · cases reset
    refine .some ⟨rfl, .nil, withConfig_reset _ e, ?_⟩
    rw [← withConfig_reset, uniform]
  · rw [serve_eq reset, serve_eq reset]
    apply rel_map (advance_withLogger logger' fuel uniform)
    intro own other echoed
    exact ⟨congrArg request.view echoed.answer, echoed.events, echoed.state, echoed.uniform⟩

theorem serveAll_echoed (fuel : Nat) (requests : List Request)
    (uniform : e.withConfig (config.withLogger logger) = e) :
    Option.Rel (List.Forall₂ (Reply.Echoed config logger logger')) (e.serveAll host fuel requests)
      ((e.withConfig (config.withLogger logger')).serveAll host fuel requests) := by
  induction requests generalizing e with
  | nil => exact .some .nil
  | cons request requests ih =>
      apply rel_bind (serve_withLogger logger' fuel request uniform)
      intro reply other echoed
      rw [echoed.state]
      apply rel_bind (ih echoed.uniform)
      intro later later' rest
      exact .some (.cons echoed rest)

theorem trace_ask_withLogger (count : Nat) (uniform : e.withConfig (config.withLogger logger) = e) :
    Echoes logger logger' ((Machine.ask e []).trace host count)
      ((Machine.ask (e.withConfig (config.withLogger logger')) []).trace host count) := by
  rw [← Machine.withConfig_ask_nil]
  exact Machine.trace_withLogger logger' count (Machine.uniform_ask uniform)

end Enumerator

/-- The logger has no influence on a search. Under any two loggers an enumeration gives the same answers
to the same requests or, with as much fuel, none to either; on the way to each answer it does the same
apart from its notes, and so does each search, before any request and after each reply, up to any of
its steps, whether or not it comes to an end. -/
theorem serveAll_withLogger (host : Host D K H) (root : D) (pattern : Pattern D K H)
    (config : MatchConfig) (logger logger' : Logger) :
    let fresh := Enumerator.new root pattern (config.withLogger logger)
    let fresh' := Enumerator.new root pattern (config.withLogger logger')
    (∀ count, Transparent logger logger' ((Machine.ask fresh []).trace host count)
      ((Machine.ask fresh' []).trace host count)) ∧
    ∀ fuel requests,
      Option.Rel
        (List.Forall₂ fun reply other =>
          other.answer = reply.answer ∧ Transparent logger logger' reply.events other.events ∧
            ∀ count, Transparent logger logger' ((Machine.ask reply.enumerator []).trace host count)
              ((Machine.ask other.enumerator []).trace host count))
        (fresh.serveAll host fuel requests) (fresh'.serveAll host fuel requests) := by
  intro fresh fresh'
  have uniform : fresh.withConfig (config.withLogger logger) = fresh :=
    Enumerator.withConfig_seeded _ _ root pattern .empty
  have other : fresh.withConfig (config.withLogger logger') = fresh' :=
    Enumerator.withConfig_seeded _ _ root pattern .empty
  rw [← other]
  constructor
  · intro count
    exact (Enumerator.trace_ask_withLogger logger' count uniform).transparent
  · intro fuel requests
    apply rel_imp (Enumerator.serveAll_echoed logger' fuel requests uniform)
    intro replies others echoed
    apply echoed.imp
    intro reply other echoed
    refine ⟨echoed.answer, echoed.events.transparent, fun count => ?_⟩
    rw [echoed.state]
    exact (Enumerator.trace_ask_withLogger logger' count echoed.uniform).transparent

example :
    let host : Host Tree String Unit := ⟨fun _ _ => .ok true, fun _ _ => .ok .wild⟩
    let pattern : Pattern Tree String Unit := .and (.or (.capture "x") .wild) (.test ())
    let counts (logger : Logger) :=
      ((Enumerator.new (.int 1) pattern ⟨false, false, logger⟩).serveAll host 20
        [.advance, .reset, .next, .advance, .next]).map
          (List.map fun reply => ((Event.calls reply.events).length, (Event.notes reply.events).length))
    counts ⟨.discard⟩ = some [(1, 0), (0, 0), (1, 0), (1, 0), (0, 0)] ∧
      counts ⟨.stderr⟩ = some [(1, 2), (0, 0), (1, 2), (1, 2), (0, 0)] := by decide

end TreeQuery
