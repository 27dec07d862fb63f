import TreeQuery.Proofs.Course.Output
import TreeQuery.Proofs.Enumerator.Adequacy

/-! Several solutions at one request. An enumeration hands out what its course has, as many solutions
as are asked for, and it does so whenever the course is known that far. -/

namespace TreeQuery

open Course (Trails)

variable {D K H : Type}

/-- The reply gives the results that are taken from a course and makes the calls up to them. -/
structure Reply.Shows (reply : Reply D K H (Results (Env D)))
    (taken : Results (Branch D) × List (Call D H)) : Prop where
  answer : reply.answer = taken.1.map Branch.captures
  calls : reply.calls = taken.2

theorem Reply.Shows.cons {rest : Reply D K H (Results (Env D))}
    {taken : Results (Branch D) × List (Call D H)} (shows : rest.Shows taken)
    (own : Reply D K H (Except MatchError Bool)) :
    Reply.Shows
      ⟨{ rest.answer with items := own.enumerator.frame.captures :: rest.answer.items },
        own.events ++ rest.events, rest.enumerator⟩
      ({ taken.1 with items := own.enumerator.frame.branch :: taken.1.items },
        own.calls ++ taken.2) := by
  constructor
  · simp only [shows.answer]
    rfl
  · rw [← shows.calls]
    exact Event.calls_append own.events rest.events

variable [TreeLike D K] [BEq D] [BEq K] {host : Host D K H}

namespace Enumerator

theorem trails_of_halts {e : Enumerator D K H} {own : Reply D K H (Except MatchError Bool)}
    (halts : Machine.Halts host (.ask e []) own) :
    ∃ lag, Trails lag (fun depth => e.course host depth) fun depth =>
      .events own.calls (Turn.course host depth (.halt own.answer own.enumerator)) := by
  rcases halts.trails with ⟨lag, trails⟩
  have same : (fun depth => (Machine.ask e []).course host depth) = fun depth => e.course host depth :=
    funext fun depth => Phase.course_ofProgress depth e
  exact ⟨lag, same ▸ trails⟩

theorem take_halt (depth limit : Nat) (own : Reply D K H (Except MatchError Bool)) :
    (Course.events own.calls (Turn.course host depth (.halt own.answer own.enumerator))).take
        (limit + 1) =
      match own.answer with
      | .error error => some (⟨[], .failed error⟩, own.calls)
      | .ok false => some (⟨[], .exhausted⟩, own.calls)
      | .ok true =>
        ((own.enumerator.course host depth).take limit).map fun taken =>
          ({ taken.1 with items := own.enumerator.frame.branch :: taken.1.items },
            own.calls ++ taken.2) := by
  rcases own with ⟨answer, events, next⟩
  rw [Course.take_events]
  match answer with
  | .error error | .ok false => exact congrArg (fun calls => some (_, calls)) (List.append_nil _)
  | .ok true =>
      rw [Turn.course, Course.take, Option.map_map]
      rfl

theorem take_succ {fuel : Nat} {e : Enumerator D K H} {own : Reply D K H (Except MatchError Bool)}
    (advances : e.advance host fuel = some own.withBindings) (limit : Nat) :
    e.take host fuel (limit + 1) =
      match own.answer with
      | .error error => some ⟨⟨[], .failed error⟩, own.events, own.enumerator⟩
      | .ok false => some ⟨⟨[], .exhausted⟩, own.events, own.enumerator⟩
      | .ok true =>
        (own.enumerator.take host fuel limit).map fun rest =>
          ⟨{ rest.answer with items := own.enumerator.frame.captures :: rest.answer.items },
            own.events ++ rest.events, rest.enumerator⟩ := by
  rcases own with ⟨answer, events, next⟩
  rw [take, advances]
  match answer with
  | .error error | .ok false => rfl
  | .ok true =>
      simp only [Reply.withBindings, Except.map, if_true, Option.bind_eq_bind, Option.bind_some]
      cases next.take host fuel limit <;> rfl

theorem take_of_returned {fuel limit : Nat} {e : Enumerator D K H} {reply : Reply D K H (Results (Env D))}
    (returned : e.take host fuel limit = some reply) :
    ∃ depth taken, (e.course host depth).take limit = some taken ∧ reply.Shows taken := by
  induction limit generalizing e reply with
  | zero =>
      cases returned
      exact ⟨0, _, Course.take_zero _, rfl, rfl⟩
  | succ limit ih =>
      have now : ∃ reply, e.advance host fuel = some reply := by
        rw [take, Option.bind_eq_bind, Option.bind_eq_some_iff] at returned
        exact returned.imp fun reply found => found.1
      rcases now with ⟨_, advances⟩
      rcases halts_of_advance advances with ⟨own, halts, rfl⟩
      rcases trails_of_halts halts with ⟨lag, trails⟩
      have shown (depth : Nat) {taken : Results (Branch D) × List (Call D H)}
          (known : (Course.events own.calls
            (Turn.course host depth (.halt own.answer own.enumerator))).take (limit + 1) = some taken) :
          (e.course host (depth + lag)).take (limit + 1) = some taken :=
        Course.take_mono (trails depth).2 known
      simp only [take_halt] at shown
      rw [take_succ advances] at returned
      cases answer : own.answer with
      | error error =>
          rw [answer] at returned shown
          cases returned
          exact ⟨_, _, shown 0 rfl, rfl, rfl⟩
      | ok found =>
          rw [answer] at returned shown
          cases found with
          | false =>
              cases returned
              exact ⟨_, _, shown 0 rfl, rfl, rfl⟩
          | true =>
              rcases Option.map_eq_some_iff.mp returned with ⟨rest, others, rfl⟩
              rcases ih others with ⟨depth, taken, known, shows⟩
              exact ⟨_, _, shown depth (congrArg (Option.map _) known), shows.cons own⟩

theorem returns_of_take {depth limit : Nat} {e : Enumerator D K H}
    {taken : Results (Branch D) × List (Call D H)}
    (known : (e.course host depth).take limit = some taken) :
    ∃ enough, ∀ fuel, enough ≤ fuel →
      ∃ reply, e.take host fuel limit = some reply ∧ reply.Shows taken := by
  induction limit generalizing e taken with
  | zero =>
      rw [Course.take_zero] at known
      cases known
      exact ⟨0, fun fuel _ => ⟨_, rfl, rfl, rfl⟩⟩
  | succ limit ih =>
      have first := Course.eventsUntil_of_le (Nat.le_add_left 1 limit) (Course.eventsUntil_of_take known)
      rcases first with ⟨calls, answered⟩
      rw [← Phase.course_ofProgress depth e] at answered
      rcases Machine.halts_of_answered (m := .ask e []) answered with ⟨own, halts⟩
      rcases advance_of_halts halts with ⟨enough, advances⟩
      rcases trails_of_halts halts with ⟨lag, trails⟩
      have shown := Course.take_mono (trails depth).1 known
      rw [take_halt] at shown
      have now (fuel : Nat) (more : enough ≤ fuel) := take_succ (advances fuel more) limit
      cases answer : own.answer with
      | error error =>
          rw [answer] at shown now
          cases shown
          exact ⟨enough, fun fuel more => ⟨_, now fuel more, rfl, rfl⟩⟩
      | ok found =>
          rw [answer] at shown now
          cases found with
          | false =>
              cases shown
              exact ⟨enough, fun fuel more => ⟨_, now fuel more, rfl, rfl⟩⟩
          | true =>
              rcases Option.map_eq_some_iff.mp shown with ⟨last, later, rfl⟩
              rcases ih later with ⟨enough', takes⟩
              refine ⟨max enough enough', fun fuel more => ?_⟩
              rcases takes fuel (Nat.le_trans (Nat.le_max_right _ _) more) with ⟨reply, others, shows⟩
              have first := now fuel (Nat.le_trans (Nat.le_max_left _ _) more)
              exact ⟨_, first.trans (congrArg (Option.map _) others), shows.cons own⟩

end Enumerator

end TreeQuery
