import TreeQuery.Find
import TreeQuery.Proofs.Course.Reading
import TreeQuery.Proofs.Enumerator.Descent
import TreeQuery.Proofs.Enumerator.Simulation

/-! An enumeration hands out its course, one answer for each request. It answers as soon as the
course does, and on the way it makes exactly the calls that the course has up to this answer. -/

namespace TreeQuery

open Course (Below Grows Trails)

variable {D K H : Type}

/-- The beginning of a course that a reply shows, where `rest` comes after a solution. -/
def Reply.layOut (reply : Reply D K H (Except MatchError (Option (Env D))))
    (rest : Course (Call D H) (Branch D)) : Course (Call D H) (Branch D) :=
  .events reply.calls <|
    match reply.answer with
    | .ok (some env) => .item ⟨env, reply.enumerator.frame.marks⟩ rest
    | .ok none => .done
    | .error error => .failed error

section LaidOut

open Enumerator (Silent Final)

variable {replies : List (Reply D K H (Except MatchError (Option (Env D))))}

theorem eventsUntil_layOut (fused : replies.Pairwise fun reply later => Final reply → Silent later)
    (rest : Course (Call D H) (Branch D)) :
    Course.eventsUntil replies.length (replies.foldr Reply.layOut rest) =
      some (replies.flatMap Reply.calls) := by
  induction fused with
  | nil => rw [List.length_nil, Course.eventsUntil, List.flatMap_nil]
  | @cons reply later after fused ih =>
      have silent (final : Final reply) : later.flatMap Reply.calls = [] := by
        rw [List.flatMap_eq_nil_iff]
        intro other member
        rw [Reply.calls, (after other member final).2]
        rfl
      rw [List.foldr_cons, List.length_cons, List.flatMap_cons, Reply.layOut,
        Course.eventsUntil_events]
      cases answer : reply.answer with
      | error error =>
          have final : Final reply := fun env solution => by cases answer.symm.trans solution
          rw [silent final]
          rfl
      | ok found =>
          cases found with
          | none =>
              have final : Final reply := fun env solution => by cases answer.symm.trans solution
              rw [silent final]
              rfl
          | some env =>
              rw [Course.eventsUntil, ih]
              rfl

def Reply.solved (reply : Reply D K H (Except MatchError (Option (Env D)))) :
    Except MatchError (Option (Branch D)) :=
  reply.answer.map (Option.map fun env => ⟨env, reply.enumerator.frame.marks⟩)

theorem Reply.captures_solved (reply : Reply D K H (Except MatchError (Option (Env D)))) :
    reply.solved.map (Option.map Branch.captures) = reply.answer := by
  rcases reply with ⟨answer, events, e⟩
  match answer with
  | .ok (some env) | .ok none | .error error => rfl

theorem solved_layOut (fused : replies.Pairwise fun reply later => Final reply → Silent later)
    (rest : Course (Call D H) (Branch D)) {i : Nat} (asked : i < replies.length) :
    (replies.foldr Reply.layOut rest).results.answer? i = (replies.map Reply.solved)[i]? := by
  induction fused generalizing i with
  | nil => cases asked
  | @cons reply later after fused ih =>
      have ended (final : Final reply) (i : Nat) (asked : i < later.length) :
          (later.map Reply.solved)[i]? = some (.ok none) := by
        have silent := (after later[i] (List.getElem_mem asked) final).1
        rw [List.getElem?_map, List.getElem?_eq_getElem asked, Option.map_some, Reply.solved, silent]
        rfl
      rw [List.foldr_cons, Reply.layOut, Course.answer?_events, List.map_cons, Reply.solved]
      cases answer : reply.answer with
      | error error =>
          have final : Final reply := fun env solution => by cases answer.symm.trans solution
          cases i with
          | zero =>
              rw [Course.answer?_failed_zero]
              rfl
          | succ i =>
              rw [Course.answer?_failed_succ, List.getElem?_cons_succ,
                ended final i (Nat.lt_of_succ_lt_succ asked)]
      | ok found =>
          cases found with
          | none =>
              have final : Final reply := fun env solution => by cases answer.symm.trans solution
              rw [Course.answer?_done]
              cases i with
              | zero => rfl
              | succ i =>
                  rw [List.getElem?_cons_succ, ended final i (Nat.lt_of_succ_lt_succ asked)]
          | some env =>
              cases i with
              | zero =>
                  rw [Course.answer?_item_zero]
                  rfl
              | succ i =>
                  rw [Course.answer?_item_succ, List.getElem?_cons_succ]
                  exact ih (Nat.lt_of_succ_lt_succ asked)

theorem answer?_layOut (fused : replies.Pairwise fun reply later => Final reply → Silent later)
    (rest : Course (Call D H) (Branch D)) {i : Nat} (asked : i < replies.length) :
    ((replies.foldr Reply.layOut rest).results.map Branch.captures).answer? i =
      (replies.map Reply.answer)[i]? := by
  rw [Results.answer?_map, solved_layOut fused rest asked, List.getElem?_map, List.getElem?_map,
    Option.map_map]
  exact congrArg (Option.map · replies[i]?) (funext Reply.captures_solved)

/-- The replies are those that the course has for the first requests. -/
def Course.Gives (c : Course (Call D H) (Branch D))
    (replies : List (Reply D K H (Except MatchError (Option (Env D))))) : Prop :=
  c.eventsUntil replies.length = some (replies.flatMap Reply.calls) ∧
    ∀ i < replies.length, c.results.answer? i = (replies.map Reply.solved)[i]?

theorem gives_layOut (fused : replies.Pairwise fun reply later => Final reply → Silent later)
    (rest : Course (Call D H) (Branch D)) : (replies.foldr Reply.layOut rest).Gives replies :=
  ⟨eventsUntil_layOut fused rest, fun _ asked => solved_layOut fused rest asked⟩

theorem Course.Gives.mono {c d : Course (Call D H) (Branch D)} (gives : c.Gives replies)
    (below : Below c d) : d.Gives replies := by
  constructor
  · exact Course.eventsUntil_mono below gives.1
  · intro i asked
    rcases Course.answer?_of_eventsUntil gives.1 asked with ⟨answer, known⟩
    rw [← gives.2 i asked, known]
    exact Course.answer?_mono below known

theorem Course.Gives.of_above {c d : Course (Call D H) (Branch D)} (gives : d.Gives replies)
    (below : Below c d) {calls : List (Call D H)}
    (known : c.eventsUntil replies.length = some calls) : c.Gives replies := by
  constructor
  · rw [known, ← Course.eventsUntil_mono below known]
    exact gives.1
  · intro i asked
    rcases Course.answer?_of_eventsUntil known asked with ⟨answer, found⟩
    rw [← gives.2 i asked, found, Course.answer?_mono below found]

end LaidOut

variable [TreeLike D K] [BEq D] [BEq K] {host : Host D K H}

namespace Machine

theorem Halts.trails {m : Machine D K H} {reply : Reply D K H (Except MatchError Bool)}
    (halts : Halts host m reply) :
    ∃ lag, Trails lag (fun depth => m.course host depth) (fun depth =>
      .events reply.calls (Turn.course host depth (.halt reply.answer reply.enumerator))) := by
  induction halts with
  | halt now => exact ⟨1, step_trails (step_of_eq now)⟩
  | @next m m' events reply now later ih =>
      rcases ih with ⟨lag, trails⟩
      have first := step_trails (step_of_eq now)
      refine ⟨lag + 1, (first.trans (trails.events (Event.calls events))).congr fun depth => ?_⟩
      rw [← Course.events_append, ← Reply.calls_after]
      rfl

/-- A machine halts if an answer shows in its course at some depth. A step takes a call off the
course up to the answer, or else it makes the loads lighter. -/
theorem halts_of_answered {m : Machine D K H} {depth : Nat} {calls : List (Call D H)}
    (answered : Course.eventsUntil 1 (m.course host depth) = some calls) :
    ∃ reply, Halts host m reply := by
  -- The outer induction is on the calls still to come, the inner one on the loads. A step without a
  -- call keeps the former, so it has to make the latter lighter.
  generalize size : calls.length = n
  induction n using Nat.strongRecOn generalizing m calls with
  | ind n fewer =>
      have loads : WellFounded fun a b : Machine D K H =>
          Multiset.IsDershowitzMannaLT a.loads b.loads :=
        InvImage.wf Machine.loads Multiset.wellFounded_isDershowitzMannaLT
      induction m using loads.induction generalizing calls with
      | _ m lighter =>
          rcases now : m.step host with ⟨events, turn⟩
          cases turn with
          | halt answer e => exact ⟨_, .halt now⟩
          | next m' =>
              have step := step_of_eq now
              have shown := Course.eventsUntil_mono (step_trails step depth).1 answered
              rw [Course.eventsUntil_events, Option.map_eq_some_iff] at shown
              rcases shown with ⟨rest, answered', rfl⟩
              have halts : ∃ reply, Halts host m' reply := by
                cases made : Event.calls events with
                | nil =>
                    rw [made] at size
                    exact lighter m' (step_lighter step made) answered' size
                | cons call others =>
                    refine fewer rest.length ?_ answered' rfl
                    rw [← size, made, List.length_append, List.length_cons]
                    omega
              rcases halts with ⟨reply, later⟩
              exact ⟨_, .next now later⟩

end Machine

theorem Reply.trails_layOut (reply : Reply D K H (Except MatchError Bool)) {lag : Nat}
    {rest : Nat → Course (Call D H) (Branch D)}
    (later : Trails lag (fun depth => reply.enumerator.course host depth) rest) :
    Trails lag
      (fun depth => .events reply.calls
        (Turn.course host depth (.halt reply.answer reply.enumerator)))
      fun depth => reply.withBindings.layOut (rest depth) := by
  rcases reply with ⟨answer, events, e⟩
  match answer with
  | .ok true => exact (later.item e.frame.branch).events (Event.calls events)
  | .ok false => exact fun depth => ⟨.refl _, .refl _⟩
  | .error error => exact fun depth => ⟨.refl _, .refl _⟩

namespace Enumerator

theorem Answers.trails {e : Enumerator D K H}
    {replies : List (Reply D K H (Except MatchError (Option (Env D))))}
    (answers : Answers host e replies) :
    ∃ (lag : Nat) (rest : Nat → Course (Call D H) (Branch D)),
      Trails lag (fun depth => e.course host depth)
        fun depth => replies.foldr Reply.layOut (rest depth) := by
  induction answers with
  | nil e =>
      exact ⟨0, fun depth => e.course host depth, .of_eq e.course_grows (fun _ => rfl) 0⟩
  | @cons e reply later now answers ih =>
      rcases ih with ⟨lag, rest, trails⟩
      rcases now.trails with ⟨lag', first⟩
      have own : ∀ depth, (Machine.ask e []).course host depth = e.course host depth :=
        fun depth => Phase.course_ofProgress depth e
      simp only [own] at first
      exact ⟨_, rest, first.trans (reply.trails_layOut trails)⟩

theorem answers_of_known {e : Enumerator D K H} {depth count : Nat} {calls : List (Call D H)}
    (known : Course.eventsUntil count (e.course host depth) = some calls) :
    ∃ replies, Answers host e replies ∧ replies.length = count := by
  induction count generalizing e calls with
  | zero => exact ⟨[], .nil e, rfl⟩
  | succ count ih =>
      rw [← Phase.course_ofProgress depth e] at known
      rcases Course.eventsUntil_of_le (Nat.le_add_left 1 count) known with ⟨first, answered⟩
      rcases Machine.halts_of_answered (m := .ask e []) answered with ⟨reply, now⟩
      rcases now.trails with ⟨lag, trails⟩
      have shown := Course.eventsUntil_mono (trails depth).1 known
      rw [Course.eventsUntil_events, Option.map_eq_some_iff] at shown
      rcases shown with ⟨later, shown, _⟩
      -- After an end or an error the enumeration is exhausted and its course is over.
      have next : ∃ calls, Course.eventsUntil count (reply.enumerator.course host depth) = some calls := by
        rcases now.progress with ⟨solution, _⟩ | ⟨_, exhausted⟩
        · rw [solution] at shown
          exact ⟨later, shown⟩
        · rw [course_exhausted exhausted]
          cases count <;> exact ⟨[], rfl⟩
      rcases next with ⟨calls, known⟩
      rcases ih known with ⟨replies, answers, length⟩
      exact ⟨_, .cons now answers, congrArg (· + 1) length⟩

theorem Answers.given {e : Enumerator D K H}
    {replies : List (Reply D K H (Except MatchError (Option (Env D))))}
    (answers : Answers host e replies) : ∃ depth, (e.course host depth).Gives replies := by
  rcases answers.trails with ⟨lag, rest, trails⟩
  exact ⟨0 + lag, (gives_layOut answers.fused (rest 0)).mono (trails 0).2⟩

theorem Answers.gives {e : Enumerator D K H} {depth : Nat} {calls : List (Call D H)}
    {replies : List (Reply D K H (Except MatchError (Option (Env D))))}
    (answers : Answers host e replies)
    (known : Course.eventsUntil replies.length (e.course host depth) = some calls) :
    (e.course host depth).Gives replies := by
  rcases answers.trails with ⟨lag, rest, trails⟩
  exact (gives_layOut answers.fused (rest depth)).of_above (trails depth).1 known

theorem answers_of_course {e : Enumerator D K H} {depth count : Nat} {calls : List (Call D H)}
    (known : Course.eventsUntil count (e.course host depth) = some calls) :
    ∃ replies, Answers host e replies ∧ replies.length = count ∧
      (e.course host depth).Gives replies := by
  rcases answers_of_known known with ⟨replies, answers, rfl⟩
  exact ⟨replies, answers, rfl, answers.gives known⟩

theorem exists_advance_iff {e : Enumerator D K H}
    {answer : Except MatchError (Option (Env D))} {calls : List (Call D H)} :
    (∃ fuel reply, e.advance host fuel = some reply ∧ reply.answer = answer ∧ reply.calls = calls) ↔
      ∃ depth, (e.course host depth).eventsUntil 1 = some calls ∧
        ((e.course host depth).results.map Branch.captures).answer? 0 = some answer := by
  simp only [Results.answer?_map, Option.map_eq_some_iff]
  constructor
  · rintro ⟨fuel, reply, returned, rfl, rfl⟩
    rcases halts_of_advance returned with ⟨own, halts, rfl⟩
    rcases (Answers.cons halts (.nil _)).given with ⟨depth, shown, answered⟩
    refine ⟨depth, shown.trans (congrArg some (List.append_nil _)), ?_⟩
    exact ⟨_, answered 0 Nat.one_pos, own.withBindings.captures_solved⟩
  · rintro ⟨depth, known, solved, answered, rfl⟩
    rcases answers_of_course known with ⟨replies, answers, length, gives⟩
    cases answers with
    | nil => cases length
    | @cons _ own later halts rest =>
        cases List.length_eq_zero_iff.mp (Nat.succ.inj length)
        rcases advance_of_halts halts with ⟨enough, advances⟩
        have shown := gives.1.symm.trans known
        have same := Option.some.inj ((gives.2 0 Nat.one_pos).symm.trans answered)
        refine ⟨enough, _, advances enough (Nat.le_refl enough), ?_, ?_⟩
        · rw [← same]
          exact own.withBindings.captures_solved.symm
        · exact (List.append_nil _).symm.trans (Option.some.inj shown)

end Enumerator

def Pattern.solutions (host : Host D K H) (config : MatchConfig) (depth : Nat)
    (pattern : Pattern D K H) (datum : D) : Results (Env D) :=
  (pattern.course host config depth datum ⟨.empty, []⟩).results.map Branch.captures

theorem course_findWith (depth : Nat) (datum : D) (pattern : Pattern D K H) (config : MatchConfig) :
    (findWith datum pattern config).course host depth =
      pattern.course host config (depth + 1) datum ⟨.empty, []⟩ :=
  Enumerator.course_seeded depth datum pattern .empty

/-- The enumeration of a pattern answers each request as the meaning of the pattern says, and it
answers whenever the meaning has an answer. -/
theorem answer_findWith_iff (host : Host D K H) (datum : D) (pattern : Pattern D K H)
    (config : MatchConfig) (i : Nat) (answer : Except MatchError (Option (Env D))) :
    (∃ fuel replies, (findWith datum pattern config).advances host fuel (i + 1) = some replies ∧
        (replies.map Reply.answer)[i]? = some answer) ↔
      ∃ depth, (pattern.solutions host config depth datum).answer? i = some answer := by
  constructor
  · rintro ⟨fuel, replies, returned, answered⟩
    rcases Enumerator.answers_of_advances returned with ⟨answers, length⟩
    rcases answers.trails with ⟨lag, rest, trails⟩
    have shown := answer?_layOut answers.fused (rest 0) (i := i) (by omega)
    rw [answered, Results.answer?_map, Option.map_eq_some_iff] at shown
    rcases shown with ⟨own, known, view⟩
    refine ⟨0 + lag + 1, ?_⟩
    rw [Pattern.solutions, ← course_findWith, Results.answer?_map,
      Course.answer?_mono (trails 0).2 known]
    exact congrArg some view
  · rintro ⟨depth, known⟩
    rw [Pattern.solutions, Results.answer?_map, Option.map_eq_some_iff] at known
    rcases known with ⟨own, known, view⟩
    have deeper := Course.answer?_mono (Pattern.course_below_succ depth pattern datum _) known
    rw [← course_findWith] at deeper
    rcases Course.eventsUntil_of_answer? deeper with ⟨calls, found⟩
    rcases Enumerator.answers_of_known found with ⟨replies, answers, length⟩
    rcases Enumerator.advances_of_answers answers with ⟨fuel, returns⟩
    rcases answers.trails with ⟨lag, rest, trails⟩
    refine ⟨fuel, replies, length ▸ returns fuel (Nat.le_refl fuel), ?_⟩
    rw [← answer?_layOut answers.fused (rest depth) (by omega), Results.answer?_map,
      Course.answer?_mono (trails depth).1 deeper]
    exact congrArg some view

/-- The enumeration of a pattern makes the calls that the meaning of the pattern has up to the
solution asked for, in the same order, and no others. -/
theorem calls_findWith_iff (host : Host D K H) (datum : D) (pattern : Pattern D K H)
    (config : MatchConfig) (count : Nat) (calls : List (Call D H)) :
    (∃ fuel replies, (findWith datum pattern config).advances host fuel count = some replies ∧
        replies.flatMap Reply.calls = calls) ↔
      ∃ depth, (pattern.course host config depth datum ⟨.empty, []⟩).eventsUntil count =
        some calls := by
  constructor
  · rintro ⟨fuel, replies, returned, rfl⟩
    rcases Enumerator.answers_of_advances returned with ⟨answers, rfl⟩
    rcases answers.trails with ⟨lag, rest, trails⟩
    have shown := eventsUntil_layOut answers.fused (rest 0)
    refine ⟨0 + lag + 1, ?_⟩
    rw [← course_findWith]
    exact Course.eventsUntil_mono (trails 0).2 shown
  · rintro ⟨depth, known⟩
    have deeper := Course.eventsUntil_mono (Pattern.course_below_succ depth pattern datum _) known
    rw [← course_findWith] at deeper
    rcases Enumerator.answers_of_known deeper with ⟨replies, answers, rfl⟩
    rcases Enumerator.advances_of_answers answers with ⟨fuel, returns⟩
    rcases answers.trails with ⟨lag, rest, trails⟩
    refine ⟨fuel, replies, returns fuel (Nat.le_refl fuel), ?_⟩
    have shown := Course.eventsUntil_mono (trails depth).1 deeper
    rw [eventsUntil_layOut answers.fused (rest depth)] at shown
    exact Option.some.inj shown

end TreeQuery
