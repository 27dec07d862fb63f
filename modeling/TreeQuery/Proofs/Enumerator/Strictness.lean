import TreeQuery.Find
import TreeQuery.Proofs.Enumerator.Echo
import TreeQuery.Tree

/-! The strict options only cut an enumeration short: up to the error of a strict option, the strict
enumeration goes the same way as the lenient one. Without strict options the errors are those of the
host. -/

namespace TreeQuery

variable {D K H : Type}

namespace Machine

/-- The strict options make an error of the next step of the machine, the lenient ones do not. The
branch comes to a template variable that it has not bound, or it solves a step of a path without
marks while further steps follow. -/
inductive StrictError (strict lenient : MatchConfig) : Machine D K H → MatchError → Prop where
  | unbound {e : Enumerator D K H} {waiting : List (Waiting D K H)} {work : List (Task D K H)}
      {datum : D} {name : String} (raises : strict.strictTemplates = true)
      (allows : lenient.strictTemplates = false)
      (front : e.frame.work = ⟨datum, .pattern (.template name)⟩ :: work)
      (unbound : e.frame.captures.get? name = none) :
      StrictError strict lenient ⟨e, .working, waiting⟩ (.unboundTemplate name)
  | dangling {e : Enumerator D K H} {w : Waiting D K H} {waiting : List (Waiting D K H)}
      {remaining : Nat} (raises : strict.strictPaths = true)
      (allows : lenient.strictPaths = false) (solved : e.frame.work = [])
      (unmarked : e.frame.marks = []) (follow : w.leg.steps.length = w.leg.step + 1 + remaining)
      (more : 1 ≤ remaining) :
      StrictError strict lenient ⟨e, .working, w :: waiting⟩ (.danglingPath w.leg.step remaining)

theorem StrictError.not_relaxes {strict lenient : MatchConfig} {m : Machine D K H} {error : MatchError}
    (raised : StrictError strict lenient m error) : ¬ strict.Relaxes lenient := by
  intro relaxes
  cases raised with
  | unbound raises allows => exact absurd ((relaxes.templates raises).symm.trans allows) (by decide)
  | dangling raises allows => exact absurd ((relaxes.paths raises).symm.trans allows) (by decide)

end Machine

namespace Leg

theorem dangling?_relaxed {strict lenient : MatchConfig} (relaxes : lenient.Relaxes strict)
    (leg : Leg D K H) (marks : List D) :
    leg.dangling? lenient marks = leg.dangling? strict marks ∨
      lenient.strictPaths = false ∧ leg.dangling? lenient marks = none := by
  cases paths : lenient.strictPaths with
  | false =>
      right
      exact ⟨rfl, by simp only [dangling?, paths, Bool.false_and, Bool.false_eq_true, if_false]⟩
  | true =>
      left
      simp only [dangling?, paths, relaxes.paths paths]

theorem dangling?_eq_some {config : MatchConfig} {leg : Leg D K H} {marks : List D}
    {error : MatchError} (dangles : leg.dangling? config marks = some error) :
    config.strictPaths = true ∧ marks = [] ∧ ∃ remaining, 1 ≤ remaining ∧
      leg.steps.length = leg.step + 1 + remaining ∧ error = .danglingPath leg.step remaining := by
  unfold dangling? at dangles
  split at dangles
  · rename_i dangling
    simp only [Bool.and_eq_true, List.isEmpty_iff, decide_eq_true_eq] at dangling
    rcases dangling with ⟨⟨paths, unmarked⟩, more⟩
    have positive : 1 ≤ leg.steps.length - (leg.step + 1) := by omega
    have counted : leg.steps.length = leg.step + 1 + (leg.steps.length - (leg.step + 1)) := by omega
    exact ⟨paths, unmarked, _, positive, counted, (Option.some.inj dangles).symm⟩
  · cases dangles

end Leg

variable [TreeLike D K] [BEq D] [BEq K] {host : Host D K H}

namespace Machine

variable {strict lenient : MatchConfig}

theorem Turns.relaxed {e : Enumerator D K H} {work : List (Task D K H)}
    {calls : List (Event D K H)} {outcome : Outcome D K H} (turns : Turns host e work calls outcome)
    (own : e.config = strict) (relaxes : lenient.Relaxes strict) :
    Turns host (e.withConfig lenient) work calls outcome ∨
      ∃ name, outcome = .abort (.unboundTemplate name) ∧ calls = [] ∧
        (∀ waiting, StrictError strict lenient ⟨e, .working, waiting⟩ (.unboundTemplate name)) ∧
        Turns host (e.withConfig lenient) work [] .fail := by
  rcases turns with ⟨task, front, performed⟩
  rw [own] at performed
  have front' : (e.withConfig lenient).frame.work = task :: work := by
    rw [Enumerator.withConfig_eq]
    exact front
  have perform' : ((e.withConfig lenient).drop work).frame.perform host
      (e.withConfig lenient).config task = (e.drop work).frame.perform host lenient task := by
    rw [Enumerator.withConfig_eq]
    rfl
  rcases (e.drop work).frame.perform_withConfig host task strict lenient with
    same | ⟨datum, name, rfl, unbound⟩
  · exact .inl ⟨task, front', by rw [perform', same, performed]⟩
  · rw [Frame.perform_unbound host unbound] at performed perform'
    by_cases same : lenient.strictTemplates = strict.strictTemplates
    · exact .inl ⟨_, front', by rw [perform', same, performed]⟩
    · cases raises : strict.strictTemplates with
      | false =>
          have raises' : lenient.strictTemplates = true := by
            rw [raises] at same
            exact eq_true_of_ne_false same
          exact absurd (relaxes.templates raises') (by rw [raises]; exact Bool.false_ne_true)
      | true =>
          have allows : lenient.strictTemplates = false := by
            rw [raises] at same
            exact eq_false_of_ne_true same
          rw [raises, if_pos rfl] at performed
          rw [allows, if_neg Bool.false_ne_true] at perform'
          rcases Prod.mk.inj performed with ⟨rfl, rfl⟩
          exact .inr ⟨name, rfl, rfl, fun _ => .unbound raises allows front unbound,
            _, front', perform'⟩

theorem Turns.allowed {e : Enumerator D K H} {work : List (Task D K H)} {calls : List (Event D K H)}
    {outcome : Outcome D K H} (turns : Turns host e work calls outcome) (own : e.config = strict)
    (relaxes : lenient.Relaxes strict) (goesOn : ∀ error, outcome ≠ .abort error) :
    Turns host (e.withConfig lenient) work calls outcome := by
  rcases turns.relaxed own relaxes with same | ⟨name, aborts, _⟩
  · exact same
  · exact absurd aborts (goesOn _)

/-- A step under the strict options is mirrored under the lenient ones, or else it raises an error of a
strict option and the lenient search goes on. -/
theorem Step.relaxed {m : Machine D K H} {events : List (Event D K H)} {turn : Turn D K H}
    (step : Step host m events turn) (uniform : m.withConfig strict = m)
    (relaxes : lenient.Relaxes strict) :
    Mirrors host strict lenient m events turn ∨
      ∃ error e, turn = .halt (.error error) e ∧ Event.calls events = [] ∧
        StrictError strict lenient m error ∧
        ∃ events' m', Step host (m.withConfig lenient) events' (.next m') := by
  have own := config_active uniform
  cases step with
  | proceed turns => exact .inl (mirrors_proceed own (turns.allowed own relaxes nofun))
  | fail turns => exact .inl (mirrors_fail (turns.allowed own relaxes nofun))
  | @abort e waiting work calls error turns =>
      rcases turns.relaxed own relaxes with same | ⟨name, aborts, rfl, raised, fails⟩
      · exact .inl (mirrors_abort same)
      · cases aborts
        exact .inr ⟨_, _, rfl, rfl, raised waiting, _, _, .fail fails⟩
  | descend turns => exact .inl (mirrors_descend own (turns.allowed own relaxes nofun))
  | solved ready => exact .inl (mirrors_solved own ready)
  | @dangling e w waiting error ready dangles =>
      rw [config_outer uniform] at dangles
      rcases w.leg.dangling?_relaxed relaxes e.frame.marks with same | ⟨allows, leads⟩
      · exact .inl (mirrors_dangling own ready (same.trans dangles))
      · -- Under the lenient options the path ends here, and the outer enumeration takes the solution.
        rcases Leg.dangling?_eq_some dangles with ⟨raises, unmarked, remaining, more, follow, rfl⟩
        have raised : StrictError strict lenient ⟨e, .working, w :: waiting⟩
            (.danglingPath w.leg.step remaining) :=
          .dangling raises allows ready unmarked follow more
        have adopts : Mirrors host strict lenient ⟨e, .working, w :: waiting⟩ _ (.next _) :=
          mirrors_adopt own (config_outer uniform) ready leads
        rcases adopts with ⟨events', _, adopts⟩
        exact .inr ⟨_, _, rfl, Event.calls_note _ _, raised, events', _, adopts⟩
  | @adopt e w waiting ready leads =>
      rw [config_outer uniform] at leads
      have leads' : w.leg.dangling? lenient e.frame.marks = none := by
        rcases w.leg.dangling?_relaxed relaxes e.frame.marks with same | ⟨_, none⟩
        · rw [same, leads]
        · exact none
      exact .inl (mirrors_adopt own (config_outer uniform) ready leads')
  | resume latest => exact .inl (mirrors_resume own latest)
  | reopen latest => exact .inl (mirrors_reopen own latest)
  | exhausted idle => exact .inl (mirrors_exhausted own idle)
  | barren idle => exact .inl (mirrors_barren own (config_outer uniform) idle)

theorem uniform_step {config : MatchConfig} {m : Machine D K H} {events : List (Event D K H)}
    {turn : Turn D K H} (now : m.step host = (events, turn)) (uniform : m.withConfig config = m) :
    turn.withConfig config = turn := by
  -- Under the same options the mirrored step is the step itself, and no error is a strict one.
  rcases (step_of_eq now).relaxed uniform (.refl config) with ⟨events', _, step⟩ | raised
  · rw [uniform] at step
    have again := eq_of_step step
    rw [now] at again
    exact (Prod.mk.inj again).2.symm
  · rcases raised with ⟨error, e, _, _, raised, _⟩
    exact absurd (.refl config) raised.not_relaxes

theorem uniform_next {config : MatchConfig} {m m' : Machine D K H} {events : List (Event D K H)}
    (now : m.step host = (events, .next m')) (uniform : m.withConfig config = m) :
    m'.withConfig config = m' :=
  Turn.next.inj (uniform_step now uniform)

theorem uniform_halts {config : MatchConfig} {m : Machine D K H}
    {reply : Reply D K H (Except MatchError Bool)} (halts : Halts host m reply)
    (uniform : m.withConfig config = m) : reply.enumerator.withConfig config = reply.enumerator := by
  induction halts with
  | halt now => exact (Turn.halt.inj (uniform_step now uniform)).2
  | next now later ih => exact ih (uniform_next now uniform)

def Cut (host : Host D K H) (strict lenient : MatchConfig) (m m' : Machine D K H)
    (calls : List (Call D H)) (error : MatchError) : Prop :=
  ∃ last, StrictError strict lenient last error ∧
    Reaches host m calls last ∧ Reaches host m' calls (last.withConfig lenient) ∧
    ∃ events next, (last.withConfig lenient).step host = (events, .next next)

theorem Halts.relaxed {m : Machine D K H} {reply : Reply D K H (Except MatchError Bool)}
    (halts : Halts host m reply) (uniform : m.withConfig strict = m)
    (relaxes : lenient.Relaxes strict) :
    (∃ other, Halts host (m.withConfig lenient) other ∧ other.answer = reply.answer ∧
        other.calls = reply.calls ∧ other.enumerator = reply.enumerator.withConfig lenient) ∨
      ∃ error, reply.answer = .error error ∧
        Cut host strict lenient m (m.withConfig lenient) reply.calls error := by
  induction halts with
  | @halt m events answer e now =>
      rcases (step_of_eq now).relaxed uniform relaxes with ⟨events', alike, step⟩ | raised
      · exact .inl ⟨_, .halt (eq_of_step step), rfl, alike.calls, rfl⟩
      · rcases raised with ⟨error, e', halted, silent, raised, events', next, goesOn⟩
        cases halted
        refine .inr ⟨error, rfl, m, raised, ?_, ?_, events', next, eq_of_step goesOn⟩
        · change Reaches host m (Event.calls events) m
          rw [silent]
          exact .refl m
        · change Reaches host _ (Event.calls events) _
          rw [silent]
          exact .refl _
  | @next m m' events reply now later ih =>
      rcases (step_of_eq now).relaxed uniform relaxes with ⟨events', alike, step⟩ | raised
      · have now' := eq_of_step step
        rcases ih (uniform_next now uniform) with ⟨other, halts, answer, calls, left⟩ | cut
        · refine .inl ⟨_, .next now' halts, answer, ?_, left⟩
          rw [Reply.calls_after, Reply.calls_after, alike.calls, calls]
        · rcases cut with ⟨error, answer, last, raised, reaches, reaches', goesOn⟩
          refine .inr ⟨error, answer, last, raised, ?_, ?_, goesOn⟩
          · rw [Reply.calls_after]
            exact .next now reaches
          · rw [Reply.calls_after, ← alike.calls]
            exact .next now' reaches'
      · rcases raised with ⟨error, e', halted, _⟩
        cases halted

end Machine

namespace Enumerator

variable {strict lenient : MatchConfig}

/-- The strict enumeration gives the solutions of the lenient one with the same calls, up to an error
of a strict option, and nothing after it. -/
inductive CutShort (host : Host D K H) (strict lenient : MatchConfig) :
    Enumerator D K H → Enumerator D K H →
      List (Reply D K H (Except MatchError (Option (Env D)))) →
      List (Reply D K H (Except MatchError (Option (Env D)))) → Prop where
  | here {e e' : Enumerator D K H} {error : MatchError}
      {reply other : Reply D K H (Except MatchError (Option (Env D)))}
      {after after' : List (Reply D K H (Except MatchError (Option (Env D))))}
      (raised : reply.answer = .error error)
      (cut : Machine.Cut host strict lenient (.ask e []) (.ask e' []) reply.calls error)
      (called : reply.calls <+: other.calls) (ended : ∀ later ∈ after, Silent later) :
      CutShort host strict lenient e e' (reply :: after) (other :: after')
  | later {e e' : Enumerator D K H} {env : Env D}
      {reply other : Reply D K H (Except MatchError (Option (Env D)))}
      {after after' : List (Reply D K H (Except MatchError (Option (Env D))))}
      (solved : reply.answer = .ok (some env)) (alike : other.answer = reply.answer)
      (called : other.calls = reply.calls)
      (rest : CutShort host strict lenient reply.enumerator other.enumerator after after') :
      CutShort host strict lenient e e' (reply :: after) (other :: after')

theorem CutShort.error {e e' : Enumerator D K H}
    {replies others : List (Reply D K H (Except MatchError (Option (Env D))))}
    (cut : CutShort host strict lenient e e' replies others) :
    ∃ reply ∈ replies, ∃ error, reply.answer = .error error := by
  induction cut with
  | here raised => exact ⟨_, .head _, _, raised⟩
  | later solved alike called rest ih =>
      rcases ih with ⟨reply, member, raised⟩
      exact ⟨reply, .tail _ member, raised⟩

theorem Answers.relaxed {e : Enumerator D K H}
    {replies others : List (Reply D K H (Except MatchError (Option (Env D))))}
    (answers : Answers host e replies) (answers' : Answers host (e.withConfig lenient) others)
    (length : replies.length = others.length) (uniform : e.withConfig strict = e)
    (relaxes : lenient.Relaxes strict) :
    (replies.map Reply.answer = others.map Reply.answer ∧
        replies.map Reply.calls = others.map Reply.calls) ∨
      CutShort host strict lenient e (e.withConfig lenient) replies others := by
  induction answers generalizing others with
  | nil e =>
      cases answers' with
      | nil => exact .inl ⟨rfl, rfl⟩
      | cons now rest => cases length
  | @cons e own later now rest ih =>
      cases answers' with
      | nil => cases length
      | @cons _ own' later' now' rest' =>
          have uniform' := Machine.uniform_ask uniform
          have relaxed := now.relaxed uniform' relaxes
          rw [Machine.withConfig_ask_nil] at relaxed
          rcases relaxed with ⟨other, halts, answer, calls, state⟩ | ⟨error, raised, cut⟩
          · cases halts.unique now'
            have answer' : own'.withBindings.answer = own.withBindings.answer := by
              simp only [Reply.withBindings, answer, state, frame_withConfig]
            rw [state] at rest'
            rcases ih rest' (Nat.succ.inj length) (Machine.uniform_halts now uniform') with
              ⟨answers, called⟩ | cut
            · left
              constructor
              · rw [List.map_cons, List.map_cons, answer', answers]
              · rw [List.map_cons, List.map_cons, called]
                exact congrArg (· :: _) calls.symm
            · right
              rcases now.progress with ⟨solution, _⟩ | ⟨_, exhausted⟩
              · rw [← state] at cut
                exact .later (Reply.withBindings_of_true solution) answer' calls cut
              · -- An exhausted enumeration has no error left that could cut it short.
                rcases cut.error with ⟨reply, member, error, raised⟩
                have silent := rest.silent exhausted reply member
                cases raised.symm.trans silent.1
          · right
            have raised' := Reply.withBindings_eq_error.mpr raised
            apply CutShort.here raised' cut
            · rcases cut with ⟨last, _, _, reaches, _⟩
              exact reaches.calls_of_halts now'
            · apply rest.silent
              apply exhausted_of_final now
              intro env solved
              cases raised'.symm.trans solved

end Enumerator

def Call.Fails (host : Host D K H) (error : MatchError) : Call D H → Prop
  | .test handle datum => host.test handle datum = .error error
  | .generate handle env => host.generate handle env = .error error

section Aborts

omit [TreeLike D K] [BEq D] [BEq K]

theorem Outcome.ofBool_ne_abort (frame : Frame D K H) (holds : Bool) (error : MatchError) :
    Outcome.ofBool frame holds ≠ .abort error := by
  cases holds <;> exact nofun

theorem Outcome.ofFrames_ne_abort (frames : List (Frame D K H)) (error : MatchError) :
    Outcome.ofFrames frames ≠ .abort error := by
  cases frames <;> exact nofun

theorem Frame.matchChildren_ne_abort (frame : Frame D K H) (data : List D)
    (items : List (Pattern D K H)) (error : MatchError) :
    frame.matchChildren data items ≠ .abort error := by
  unfold Frame.matchChildren
  split <;> exact nofun

theorem Frame.follow_ne_abort (frame : Frame D K H) (datum : D) (steps : List (Pattern D K H))
    (step : Nat) (error : MatchError) : frame.follow datum steps step ≠ .abort error := by
  unfold Frame.follow
  split <;> exact nofun

end Aborts

theorem Frame.apply_eq_abort {frame : Frame D K H} {datum : D} {pattern : Pattern D K H}
    {config : MatchConfig} {error : MatchError} (allows : config.strictTemplates = false)
    (aborts : frame.apply host config datum pattern = .abort error) :
    ∃ call, Event.calls (frame.calls datum pattern) = [call] ∧ call.Fails host error := by
  cases pattern with
  | wild | capture name | and left right | or left right | mark => cases aborts
  | atom value | ofKind kind => exact absurd aborts (Outcome.ofBool_ne_abort frame _ error)
  | template name =>
      simp only [apply, allows, Bool.false_eq_true, if_false] at aborts
      split at aborts
      · exact absurd aborts (Outcome.ofBool_ne_abort frame _ error)
      · cases aborts
  | node kind items =>
      simp only [apply] at aborts
      split at aborts
      · exact absurd aborts (frame.matchChildren_ne_abort _ items error)
      · cases aborts
  | contents items => exact absurd aborts (frame.matchChildren_ne_abort _ items error)
  | path steps => exact absurd aborts (frame.follow_ne_abort datum steps 0 error)
  | window items => exact absurd aborts (Outcome.ofFrames_ne_abort _ error)
  | test handle =>
      refine ⟨.test handle datum, rfl, ?_⟩
      simp only [apply] at aborts
      split at aborts
      · exact absurd aborts (Outcome.ofBool_ne_abort frame _ error)
      · rename_i own failed
        cases aborts
        exact failed
  | generate handle =>
      refine ⟨.generate handle frame.captures, rfl, ?_⟩
      simp only [apply] at aborts
      split at aborts
      · cases aborts
      · rename_i own failed
        cases aborts
        exact failed

theorem Machine.Step.failing {config : MatchConfig} {m : Machine D K H}
    {events : List (Event D K H)} {error : MatchError} {e : Enumerator D K H}
    (step : Step host m events (.halt (.error error) e)) (uniform : m.withConfig config = m)
    (templates : config.strictTemplates = false) (paths : config.strictPaths = false) :
    ∃ call, Event.calls events = [call] ∧ call.Fails host error := by
  have own := config_active uniform
  cases step with
  | abort turns =>
      rcases turns with ⟨⟨datum, goal⟩, front, performed⟩
      rw [own] at performed
      cases goal with
      | path steps step =>
          exact absurd (Prod.mk.inj performed).2 (Frame.follow_ne_abort _ datum steps step error)
      | pattern pattern =>
          rcases Prod.mk.inj performed with ⟨rfl, aborts⟩
          exact Frame.apply_eq_abort templates aborts
  | dangling ready dangles =>
      rw [config_outer uniform] at dangles
      have raises := (Leg.dangling?_eq_some dangles).1
      rw [paths] at raises
      cases raises

theorem Machine.Halts.failing {config : MatchConfig} {m : Machine D K H}
    {reply : Reply D K H (Except MatchError Bool)} {error : MatchError}
    (halts : Halts host m reply) (raised : reply.answer = .error error)
    (uniform : m.withConfig config = m) (templates : config.strictTemplates = false)
    (paths : config.strictPaths = false) :
    ∃ call, reply.calls.getLast? = some call ∧ call.Fails host error := by
  induction halts with
  | @halt m events answer e now =>
      cases raised
      rcases (step_of_eq now).failing uniform templates paths with ⟨call, alone, fails⟩
      refine ⟨call, ?_, fails⟩
      change (Event.calls events).getLast? = some call
      rw [alone]
      rfl
  | next now later ih =>
      rcases ih raised (uniform_next now uniform) with ⟨call, last, fails⟩
      refine ⟨call, ?_, fails⟩
      rw [Reply.calls_after, List.getLast?_append, last]
      rfl

theorem Enumerator.Answers.failing {config : MatchConfig} {e : Enumerator D K H}
    {replies : List (Reply D K H (Except MatchError (Option (Env D))))}
    (answers : Answers host e replies) (uniform : e.withConfig config = e)
    (templates : config.strictTemplates = false) (paths : config.strictPaths = false) :
    ∀ reply ∈ replies, ∀ error, reply.answer = .error error →
      ∃ call, reply.calls.getLast? = some call ∧ call.Fails host error := by
  induction answers with
  | nil e => exact fun reply member => absurd member List.not_mem_nil
  | @cons e own later now rest ih =>
      have uniform' := Machine.uniform_ask uniform
      intro reply member error raised
      rcases List.mem_cons.mp member with rfl | member
      · exact now.failing (Reply.withBindings_eq_error.mp raised) uniform' templates paths
      · exact ih (Machine.uniform_halts now uniform') reply member error raised

/-- The strict options only cut an enumeration short. It gives the same replies as under options from
which some are cleared, or else the same ones up to an error of an option that is cleared. If both
are cleared then each error is the one of a call of the host, the last call before it, so there is no
error if no call fails. -/
theorem replies_findWith_clear (host : Host D K H) (datum : D) (pattern : Pattern D K H)
    (strict : MatchConfig) :
    (∀ templates paths fuel fuel' count replies others,
      (findWith datum pattern strict).advances host fuel count = some replies →
      (findWith datum pattern (strict.clear templates paths)).advances host fuel' count =
        some others →
      (replies.map Reply.answer = others.map Reply.answer ∧
          replies.map Reply.calls = others.map Reply.calls) ∨
        Enumerator.CutShort host strict (strict.clear templates paths)
          (findWith datum pattern strict) (findWith datum pattern (strict.clear templates paths))
          replies others) ∧
    ∀ fuel count replies,
      (findWith datum pattern (strict.clear true true)).advances host fuel count = some replies →
      (∀ reply ∈ replies, ∀ error, reply.answer = .error error →
        ∃ call, reply.calls.getLast? = some call ∧ call.Fails host error) ∧
      ((∀ call ∈ replies.flatMap Reply.calls, ∀ error, ¬ call.Fails host error) →
        ∀ reply ∈ replies, ∀ error, reply.answer ≠ .error error) := by
  have fresh (config own : MatchConfig) :
      (findWith datum pattern own).withConfig config = findWith datum pattern config :=
    Enumerator.withConfig_seeded config own datum pattern .empty
  constructor
  · intro templates paths fuel fuel' count replies others returned returned'
    rcases Enumerator.answers_of_advances returned with ⟨answers, length⟩
    rcases Enumerator.answers_of_advances returned' with ⟨answers', length'⟩
    rw [← fresh (strict.clear templates paths) strict] at answers' ⊢
    exact answers.relaxed answers' (length.trans length'.symm) (fresh strict strict)
      (strict.clear_relaxes templates paths)
  · intro fuel count replies returned
    rcases Enumerator.answers_of_advances returned with ⟨answers, _⟩
    have errors := answers.failing (fresh _ _) (Bool.and_false _) (Bool.and_false _)
    constructor
    · exact errors
    intro infallible reply member error raised
    rcases errors reply member error raised with ⟨call, last, fails⟩
    have called : call ∈ replies.flatMap Reply.calls :=
      List.mem_flatMap.mpr ⟨reply, member, List.mem_of_getLast? last⟩
    exact infallible call called error fails

def captureOrFail : Pattern Tree String Unit :=
  .or (.capture "x") (.or (.template "y") (.test ()))

def constantHost (answer : Except MatchError Bool) : Host Tree String Unit :=
  ⟨fun _ _ => answer, fun _ _ => .ok .wild⟩

theorem replies_captureOrFail_clear :
    let strict : MatchConfig := ⟨true, true, {}⟩
    let mute := constantHost (.ok false)
    let down := constantHost (.error (.host "down"))
    (∃ replies others,
      (findWith (.int 1) captureOrFail strict).advances mute 20 2 = some replies ∧
      (findWith (.int 1) captureOrFail (strict.clear true false)).advances mute 20 2 = some others ∧
      Enumerator.CutShort mute strict (strict.clear true false)
        (findWith (.int 1) captureOrFail strict)
        (findWith (.int 1) captureOrFail (strict.clear true false)) replies others) ∧
    (∃ replies, (findWith (.int 1) captureOrFail (strict.clear true true)).advances down 20 2 =
        some replies ∧
      ∃ reply ∈ replies, ∃ call error, reply.calls.getLast? = some call ∧ call.Fails down error) ∧
    ∃ replies, (findWith (.int 1) captureOrFail (strict.clear true true)).advances mute 20 2 =
        some replies ∧
      ∀ reply ∈ replies, ∀ error, reply.answer ≠ .error error := by
  intro strict mute down
  have law (host : Host Tree String Unit) :=
    replies_findWith_clear host (.int 1) captureOrFail strict
  have evaluate (config : MatchConfig) (host : Host Tree String Unit) (sound : List Bool)
      (evaluated : ((findWith (.int 1) captureOrFail config).advances host 20 2).map
        (List.map fun reply => reply.answer.isOk) = some sound) :
      ∃ replies, (findWith (.int 1) captureOrFail config).advances host 20 2 = some replies ∧
        replies.map (fun reply => reply.answer.isOk) = sound := Option.map_eq_some_iff.mp evaluated
  rcases evaluate strict mute [true, false] (by decide) with ⟨replies, returned, sound⟩
  rcases evaluate (strict.clear true false) mute [true, true] (by decide) with
    ⟨others, returned', sound'⟩
  rcases evaluate (strict.clear true true) down [true, false] (by decide) with
    ⟨failed, returned'', sound''⟩
  rcases evaluate (strict.clear true true) mute [true, true] (by decide) with
    ⟨silent, returned''', _⟩
  refine ⟨⟨replies, others, returned, returned', ?_⟩, ⟨failed, returned'', ?_⟩,
    ⟨silent, returned''', ?_⟩⟩
  · rcases (law mute).1 true false 20 20 2 replies others returned returned' with ⟨answers, _⟩ | cut
    · have same := congrArg (List.map Except.isOk) answers
      rw [List.map_map, List.map_map] at same
      cases sound.symm.trans (same.trans sound')
    · exact cut
  · have raised : ∃ reply ∈ failed, reply.answer.isOk = false := by
      have member : false ∈ failed.map fun reply => reply.answer.isOk := by
        rw [sound'']
        decide
      exact List.mem_map.mp member
    rcases raised with ⟨reply, member, unsound⟩
    cases answer : reply.answer with
    | ok found => simp [answer, Except.isOk, Except.toBool] at unsound
    | error error =>
        rcases ((law down).2 20 2 failed returned'').1 reply member error answer with
          ⟨call, last, fails⟩
        exact ⟨reply, member, call, error, last, fails⟩
  · apply ((law mute).2 20 2 silent returned''').2
    intro call called error fails
    cases call <;> cases fails

end TreeQuery
