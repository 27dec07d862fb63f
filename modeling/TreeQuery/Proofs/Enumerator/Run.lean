import TreeQuery.Enumerator.Advance
import TreeQuery.Proofs.Enumerator.Step

/-! Runs of the machine. A run that returns is a finite chain of steps; it does not depend on how
much fuel there was beyond what it took. -/

namespace TreeQuery

variable {D K H : Type}

def Reply.calls {α : Type} (reply : Reply D K H α) : List (Call D H) := Event.calls reply.events

def Reply.after {α : Type} (events : List (Event D K H)) (reply : Reply D K H α) :
    Reply D K H α :=
  { reply with events := events ++ reply.events }

theorem Reply.after_append {α : Type} (es fs : List (Event D K H)) (reply : Reply D K H α) :
    reply.after (es ++ fs) = (reply.after fs).after es := by
  simp only [after, List.append_assoc]

theorem Reply.calls_after {α : Type} (events : List (Event D K H)) (reply : Reply D K H α) :
    (reply.after events).calls = Event.calls events ++ reply.calls :=
  Event.calls_append events reply.events

def Reply.withBindings (reply : Reply D K H (Except MatchError Bool)) :
    Reply D K H (Except MatchError (Option (Env D))) :=
  { reply with
    answer := reply.answer.map fun found =>
      if found then some reply.enumerator.frame.captures else none }

theorem Reply.withBindings_of_true {reply : Reply D K H (Except MatchError Bool)}
    (solution : reply.answer = .ok true) :
    reply.withBindings.answer = .ok (some reply.enumerator.frame.captures) := by
  simp only [withBindings, solution, Except.map, if_true]

theorem Reply.withBindings_eq_error {reply : Reply D K H (Except MatchError Bool)}
    {error : MatchError} :
    reply.withBindings.answer = .error error ↔ reply.answer = .error error := by
  cases answer : reply.answer <;> simp [withBindings, answer, Except.map]

def Reply.solves? (reply : Reply D K H (Except MatchError (Option (Env D)))) : Option Bool :=
  reply.answer.toOption.map Option.isSome

section Shown

variable {replies : List (Reply D K H (Except MatchError (Option (Env D))))} {shown : List (Option Bool)}

theorem Reply.forall_ne_error (evaluated : replies.map solves? = shown) (fine : none ∉ shown) :
    ∀ reply ∈ replies, ∀ error, reply.answer ≠ .error error := by
  intro reply member error raised
  apply fine
  rw [← evaluated]
  refine List.mem_map.mpr ⟨reply, member, ?_⟩
  rw [solves?, raised]
  rfl

theorem Reply.exists_shown {found : Bool} (evaluated : replies.map solves? = shown)
    (present : some found ∈ shown) :
    ∃ reply ∈ replies, ∃ env?, reply.answer = .ok env? ∧ env?.isSome = found := by
  rw [← evaluated] at present
  rcases List.mem_map.mp present with ⟨reply, member, solves⟩
  rw [solves?] at solves
  cases answer : reply.answer with
  | error error =>
      rw [answer] at solves
      cases solves
  | ok env? =>
      rw [answer] at solves
      exact ⟨reply, member, env?, answer, Option.some.inj solves⟩

theorem Reply.exists_ended (evaluated : replies.map solves? = shown) (ended : some false ∈ shown) :
    ∃ reply ∈ replies, reply.answer = .ok none := by
  rcases exists_shown evaluated ended with ⟨reply, member, none | env, answer, found⟩
  · exact ⟨reply, member, answer⟩
  · cases found

theorem Reply.exists_solution (evaluated : replies.map solves? = shown) (solved : some true ∈ shown) :
    ∃ reply ∈ replies, ∃ env, reply.answer = .ok (some env) := by
  rcases exists_shown evaluated solved with ⟨reply, member, none | env, answer, found⟩
  · cases found
  · exact ⟨reply, member, env, answer⟩

end Shown

variable [TreeLike D K] [BEq D] [BEq K] {host : Host D K H}

namespace Machine

/-- The machine halts with the given reply, whatever the number of steps. -/
inductive Halts (host : Host D K H) :
    Machine D K H → Reply D K H (Except MatchError Bool) → Prop where
  | halt {m : Machine D K H} {events : List (Event D K H)} {answer : Except MatchError Bool}
      {e : Enumerator D K H} (now : m.step host = (events, .halt answer e)) :
      Halts host m ⟨answer, events, e⟩
  | next {m m' : Machine D K H} {events : List (Event D K H)}
      {reply : Reply D K H (Except MatchError Bool)} (now : m.step host = (events, .next m'))
      (later : Halts host m' reply) :
      Halts host m (reply.after events)

inductive Reaches (host : Host D K H) :
    Machine D K H → List (Call D H) → Machine D K H → Prop where
  | refl (m : Machine D K H) : Reaches host m [] m
  | next {m m' m'' : Machine D K H} {events : List (Event D K H)} {calls : List (Call D H)}
      (now : m.step host = (events, .next m')) (later : Reaches host m' calls m'') :
      Reaches host m (Event.calls events ++ calls) m''

theorem Halts.unique {m : Machine D K H} {first second : Reply D K H (Except MatchError Bool)}
    (one : Halts host m first) (other : Halts host m second) : first = second := by
  induction one generalizing second with
  | halt now =>
      cases other with
      | halt again =>
          obtain ⟨rfl, halted⟩ := Prod.mk.inj (now.symm.trans again)
          cases halted
          rfl
      | next again later => cases (Prod.mk.inj (now.symm.trans again)).2
  | next now later ih =>
      cases other with
      | halt again => cases (Prod.mk.inj (now.symm.trans again)).2
      | next again later' =>
          obtain ⟨rfl, moved⟩ := Prod.mk.inj (now.symm.trans again)
          cases moved
          rw [ih later']

theorem Reaches.calls_of_halts {m m' : Machine D K H} {calls : List (Call D H)}
    {reply : Reply D K H (Except MatchError Bool)} (reaches : Reaches host m calls m')
    (halts : Halts host m reply) : calls <+: reply.calls := by
  induction reaches generalizing reply with
  | refl m => exact List.nil_prefix
  | next now later ih =>
      cases halts with
      | halt again => cases (Prod.mk.inj (now.symm.trans again)).2
      | next again halts =>
          rcases Prod.mk.inj (now.symm.trans again) with ⟨rfl, moved⟩
          cases moved
          rw [Reply.calls_after]
          exact (List.prefix_append_right_inj _).mpr (ih halts)

theorem run_halt {m : Machine D K H} {events : List (Event D K H)}
    {answer : Except MatchError Bool} {e : Enumerator D K H}
    (now : m.step host = (events, .halt answer e)) (fuel : Nat) (log : Array (Event D K H)) :
    Machine.run host (fuel + 1) m log = some ⟨answer, log.toList ++ events, e⟩ := by
  simp [Machine.run, now]

theorem run_next {m m' : Machine D K H} {events : List (Event D K H)}
    (now : m.step host = (events, .next m')) (fuel : Nat) (log : Array (Event D K H)) :
    Machine.run host (fuel + 1) m log = Machine.run host fuel m' (log.appendList events) := by
  simp [Machine.run, now]

theorem halts_of_run {fuel : Nat} {m : Machine D K H} {log : Array (Event D K H)}
    {reply : Reply D K H (Except MatchError Bool)}
    (returned : Machine.run host fuel m log = some reply) :
    ∃ own, Halts host m own ∧ reply = own.after log.toList := by
  induction fuel generalizing m log with
  | zero => simp [Machine.run] at returned
  | succ fuel ih =>
      rcases now : m.step host with ⟨events, turn⟩
      cases turn with
      | halt answer e =>
          rw [run_halt now] at returned
          exact ⟨_, .halt now, (Option.some.inj returned).symm⟩
      | next m' =>
          rw [run_next now] at returned
          obtain ⟨own, halts, rfl⟩ := ih returned
          refine ⟨own.after events, .next now halts, ?_⟩
          rw [Array.appendList_eq_append, Array.toList_appendList, Reply.after_append]

theorem run_of_halts {m : Machine D K H} {reply : Reply D K H (Except MatchError Bool)}
    (halts : Halts host m reply) :
    ∃ enough, ∀ fuel, enough ≤ fuel → ∀ log : Array (Event D K H),
      Machine.run host fuel m log = some (reply.after log.toList) := by
  induction halts with
  | halt now =>
      refine ⟨1, fun fuel enough log => ?_⟩
      obtain ⟨fuel, rfl⟩ := Nat.exists_eq_add_of_le' enough
      exact run_halt now fuel log
  | next now later ih =>
      obtain ⟨enough, runs⟩ := ih
      refine ⟨enough + 1, fun fuel more log => ?_⟩
      obtain ⟨fuel, rfl⟩ := Nat.exists_eq_add_of_le' (Nat.le_of_add_left_le more)
      rw [run_next now, runs fuel (Nat.le_of_add_le_add_right more), Array.appendList_eq_append,
        Array.toList_appendList, Reply.after_append]

theorem Halts.progress {m : Machine D K H} {reply : Reply D K H (Except MatchError Bool)}
    (halts : Halts host m reply) :
    reply.answer = .ok true ∧ reply.enumerator.progress = .yielded ∨
      reply.answer ≠ .ok true ∧ reply.enumerator.progress = .exhausted := by
  induction halts with
  | halt now =>
      cases step_of_eq now with
      | abort turns => exact .inr ⟨nofun, rfl⟩
      | solved ready => exact .inl ⟨rfl, rfl⟩
      | dangling ready dangles => exact .inr ⟨nofun, rfl⟩
      | exhausted idle => exact .inr ⟨nofun, rfl⟩
  | next now later ih => exact ih

theorem Halts.of_exhausted {e : Enumerator D K H} {reply : Reply D K H (Except MatchError Bool)}
    (exhausted : e.progress = .exhausted) (halts : Halts host (.ask e []) reply) :
    reply = ⟨.ok false, [], e⟩ := by
  have same : e.finish = e := by
    obtain ⟨root, pattern, seed, config, frame, choices, progress⟩ := e
    cases exhausted
    rfl
  have spent : (Machine.ask e []).step host = ([], .halt (.ok false) e.finish) := by
    simp only [Machine.ask, exhausted]
    rfl
  rw [halts.unique (.halt spent), same]

end Machine

namespace Enumerator

def advances (host : Host D K H) (fuel : Nat) :
    Nat → Enumerator D K H → Option (List (Reply D K H (Except MatchError (Option (Env D)))))
  | 0, _ => some []
  | count + 1, e => do
    let reply ← e.advance host fuel
    let later ← advances host fuel count reply.enumerator
    some (reply :: later)

/-- The enumeration gives these replies one after the other, whatever the fuel they take. -/
inductive Answers (host : Host D K H) :
    Enumerator D K H → List (Reply D K H (Except MatchError (Option (Env D)))) → Prop where
  | nil (e : Enumerator D K H) : Answers host e []
  | cons {e : Enumerator D K H} {reply : Reply D K H (Except MatchError Bool)}
      {later : List (Reply D K H (Except MatchError (Option (Env D))))}
      (now : Machine.Halts host (.ask e []) reply) (rest : Answers host reply.enumerator later) :
      Answers host e (reply.withBindings :: later)

def Silent (reply : Reply D K H (Except MatchError (Option (Env D)))) : Prop :=
  reply.answer = .ok none ∧ reply.events = []

def Final (reply : Reply D K H (Except MatchError (Option (Env D)))) : Prop :=
  ∀ env, reply.answer ≠ .ok (some env)

theorem advance_eq (fuel : Nat) (e : Enumerator D K H) :
    e.advance host fuel = (e.solve host fuel).map Reply.withBindings := rfl

theorem halts_of_advance {fuel : Nat} {e : Enumerator D K H}
    {reply : Reply D K H (Except MatchError (Option (Env D)))}
    (returned : e.advance host fuel = some reply) :
    ∃ own, Machine.Halts host (.ask e []) own ∧ reply = own.withBindings := by
  rw [advance_eq, Option.map_eq_some_iff] at returned
  obtain ⟨solved, run, rfl⟩ := returned
  obtain ⟨own, halts, rfl⟩ := Machine.halts_of_run run
  exact ⟨own, halts, rfl⟩

theorem advance_of_halts {e : Enumerator D K H} {own : Reply D K H (Except MatchError Bool)}
    (halts : Machine.Halts host (.ask e []) own) :
    ∃ enough, ∀ fuel, enough ≤ fuel → e.advance host fuel = some own.withBindings := by
  obtain ⟨enough, runs⟩ := Machine.run_of_halts halts
  refine ⟨enough, fun fuel more => ?_⟩
  rw [advance_eq, solve, runs fuel more]
  rfl

theorem Answers.silent {e : Enumerator D K H}
    {replies : List (Reply D K H (Except MatchError (Option (Env D))))}
    (answers : Answers host e replies) (exhausted : e.progress = .exhausted) :
    ∀ reply ∈ replies, Silent reply := by
  induction answers with
  | nil e => simp
  | cons now rest ih =>
      have same := now.of_exhausted exhausted
      subst same
      intro reply member
      rcases List.mem_cons.mp member with rfl | later
      · exact ⟨rfl, rfl⟩
      · exact ih exhausted reply later

theorem exhausted_of_final {e : Enumerator D K H} {own : Reply D K H (Except MatchError Bool)}
    (halts : Machine.Halts host (.ask e []) own) (final : Final own.withBindings) :
    own.enumerator.progress = .exhausted := by
  rcases halts.progress with ⟨solution, _⟩ | ⟨_, exhausted⟩
  · exact absurd (Reply.withBindings_of_true solution) (final _)
  · exact exhausted

theorem Answers.fused {e : Enumerator D K H}
    {replies : List (Reply D K H (Except MatchError (Option (Env D))))}
    (answers : Answers host e replies) :
    replies.Pairwise fun reply later => Final reply → Silent later := by
  induction answers with
  | nil e => exact .nil
  | cons now rest ih =>
      apply List.Pairwise.cons _ ih
      intro later member final
      exact rest.silent (exhausted_of_final now final) later member

theorem answers_of_advances {fuel count : Nat} {e : Enumerator D K H}
    {replies : List (Reply D K H (Except MatchError (Option (Env D))))}
    (returned : e.advances host fuel count = some replies) :
    Answers host e replies ∧ replies.length = count := by
  induction count generalizing e replies with
  | zero =>
      cases returned
      exact ⟨.nil e, rfl⟩
  | succ count ih =>
      simp only [advances, Option.bind_eq_bind, Option.bind_eq_some_iff, Option.some.injEq]
        at returned
      obtain ⟨reply, first, later, others, rfl⟩ := returned
      obtain ⟨own, halts, rfl⟩ := halts_of_advance first
      obtain ⟨answers, length⟩ := ih others
      exact ⟨.cons halts answers, congrArg (· + 1) length⟩

theorem advances_of_answers {e : Enumerator D K H}
    {replies : List (Reply D K H (Except MatchError (Option (Env D))))}
    (answers : Answers host e replies) :
    ∃ enough, ∀ fuel, enough ≤ fuel → e.advances host fuel replies.length = some replies := by
  induction answers with
  | nil e => exact ⟨0, fun _ _ => rfl⟩
  | cons now rest ih =>
      obtain ⟨enough, first⟩ := advance_of_halts now
      obtain ⟨enough', others⟩ := ih
      refine ⟨max enough enough', fun fuel more => ?_⟩
      rw [List.length_cons, advances, first fuel (Nat.le_trans (Nat.le_max_left _ _) more)]
      have later := others fuel (Nat.le_trans (Nat.le_max_right _ _) more)
      simp only [Option.bind_eq_bind, Option.bind_some]
      exact congrArg (Option.bind · _) later

def leftBy (e : Enumerator D K H)
    (replies : List (Reply D K H (Except MatchError (Option (Env D))))) : Enumerator D K H :=
  replies.foldl (fun _ reply => reply.enumerator) e

theorem advances_one (fuel : Nat) (e : Enumerator D K H) :
    e.advances host fuel 1 = (e.advance host fuel).map ([·]) := by
  simp only [advances]
  cases e.advance host fuel <;> rfl

theorem advances_add {fuel count : Nat} {e : Enumerator D K H}
    {first : List (Reply D K H (Except MatchError (Option (Env D))))}
    (returned : e.advances host fuel count = some first) (more : Nat) :
    e.advances host fuel (count + more) =
      ((e.leftBy first).advances host fuel more).map (first ++ ·) := by
  induction count generalizing e first with
  | zero =>
      cases returned
      rw [Nat.zero_add]
      exact Option.map_id'.symm
  | succ count ih =>
      simp only [advances, Option.bind_eq_bind, Option.bind_eq_some_iff, Option.some.injEq]
        at returned
      rcases returned with ⟨reply, now, later, others, rfl⟩
      rw [Nat.succ_add, advances, now, Option.bind_eq_bind, Option.bind_some, ih others]
      change _ = ((reply.enumerator.leftBy later).advances host fuel more).map _
      cases (reply.enumerator.leftBy later).advances host fuel more <;> rfl

end Enumerator

end TreeQuery
