import TreeQuery.Find
import TreeQuery.Proofs.Datum.Nodes
import TreeQuery.Proofs.Enumerator.Taking

/-! A search of all nodes hands out what its course has. This course is made of the courses at the
nodes, one after the other in preorder, in each of which the error is an item. -/

namespace TreeQuery

open Course (Below Grows Trails)

variable {D K H : Type}

def SearchReply.calls {α : Type} (reply : SearchReply D K H α) : List (Call D H) :=
  Event.calls reply.events

variable [TreeLike D K] [BEq D] [BEq K] {host : Host D K H}

def Reply.item? (reply : Reply D K H (Except MatchError (Option (Env D)))) :
    Option (Except MatchError (Env D)) :=
  match reply.answer with
  | .ok env => env.map .ok
  | .error error => some (.error error)

def Course.opening {E A : Type} (item? : Option A) (rest : Course E A) : Course E A :=
  match item? with
  | some a => .item a rest
  | none => .done

theorem Course.take_opening {E A : Type} (es : List E) (item? : Option A) (rest : Course E A)
    (limit : Nat) :
    (Course.events es (.opening item? rest)).take (limit + 1) =
      match item? with
      | none => some (⟨[], .exhausted⟩, es)
      | some a =>
        (rest.take limit).map fun taken =>
          ({ taken.1 with items := a :: taken.1.items }, es ++ taken.2) := by
  rw [Course.take_events]
  cases item? with
  | none => exact congrArg (fun events => some (_, events)) (List.append_nil _)
  | some a =>
      rw [opening, Course.take, Option.map_map]
      rfl

abbrev Enumerator.items (host : Host D K H) (depth : Nat) (e : Enumerator D K H) :
    Course (Call D H) (Except MatchError (Env D)) :=
  (e.course host depth).itemized Branch.captures

theorem Enumerator.items_grow (e : Enumerator D K H) : Grows fun depth => e.items host depth :=
  fun depth => (e.course_grows depth).itemized _

theorem Enumerator.trails_items {e : Enumerator D K H} {own : Reply D K H (Except MatchError Bool)}
    (halts : Machine.Halts host (.ask e []) own) :
    ∃ lag, Trails lag (fun depth => e.items host depth) fun depth =>
      .events own.calls (.opening own.withBindings.item? (own.enumerator.items host depth)) := by
  rcases trails_of_halts halts with ⟨lag, trails⟩
  refine ⟨lag, (trails.itemized Branch.captures).congr fun depth => ?_⟩
  rw [Course.itemized_events]
  have progress := halts.progress
  rcases own with ⟨answer, events, next⟩
  match answer with
  | .ok true | .ok false => rfl
  | .error error =>
      rcases progress with ⟨solution, _⟩ | ⟨_, exhausted⟩
      · cases solution
      · rw [items, course_exhausted exhausted]
        rfl

namespace Search

def here (host : Host D K H) (depth : Nat) (s : Search D K H) :
    Course (Call D H) (Except MatchError (Env D)) :=
  s.current.elim .done (Enumerator.items host depth)

/-- The enumerations at the nodes to come, one after the other. -/
def later (host : Host D K H) (depth : Nat) (s : Search D K H) :
    Course (Call D H) (Except MatchError (Env D)) :=
  .concat (s.walk.toList.map fun d => (find d s.pattern).items host depth)

/-- The course of the items that are still to be handed out. -/
def course (host : Host D K H) (depth : Nat) (s : Search D K H) :
    Course (Call D H) (Except MatchError (Env D)) :=
  s.here host depth ++ s.later host depth

theorem later_grows (host : Host D K H) (s : Search D K H) : Grows fun depth => s.later host depth :=
  fun depth => .concat _ fun d => (find d s.pattern).items_grow depth

theorem nextHere_trails {fuel : Nat} {s : Search D K H}
    {reply : SearchReply D K H (Option (Except MatchError (Env D)))}
    (returned : s.nextHere host fuel = some reply) :
    (∃ lag, Trails lag (fun depth => s.here host depth) fun depth =>
      .events reply.calls (.opening reply.answer (reply.search.here host depth))) ∧
      ∀ depth, reply.search.later host depth = s.later host depth := by
  rcases s with ⟨pattern, current, walk⟩
  cases current with
  | none =>
      cases returned
      exact ⟨⟨0, fun depth => ⟨.refl _, .refl _⟩⟩, fun _ => rfl⟩
  | some e =>
      simp only [nextHere, Enumerator.next, Option.map_map, Option.map_eq_some_iff] at returned
      rcases returned with ⟨_, advanced, rfl⟩
      rcases Enumerator.halts_of_advance advanced with ⟨own, halts, rfl⟩
      exact ⟨Enumerator.trails_items halts, fun _ => rfl⟩

theorem nextHere_of_known {depth : Nat} {s : Search D K H} {calls : List (Call D H)}
    (known : (s.here host depth).eventsUntil 1 = some calls) :
    ∃ reply enough, ∀ fuel, enough ≤ fuel → s.nextHere host fuel = some reply := by
  rcases s with ⟨pattern, current, walk⟩
  cases current with
  | none => exact ⟨_, 0, fun fuel _ => rfl⟩
  | some e =>
      have answered : (e.items host depth).eventsUntil 1 = some calls := known
      rw [Course.eventsUntil_itemized, ← Phase.course_ofProgress depth e] at answered
      rcases Machine.halts_of_answered (m := .ask e []) answered with ⟨own, halts⟩
      rcases Enumerator.advance_of_halts halts with ⟨enough, advances⟩
      exact ⟨_, enough, fun fuel more =>
        congrArg (Option.map _) (congrArg (Option.map _) (advances fuel more))⟩

section Next

variable {fuel : Nat} {s : Search D K H} {first : SearchReply D K H (Option (Except MatchError (Env D)))}

theorem next_of_item {item : Except MatchError (Env D)} (now : s.nextHere host fuel = some first)
    (gives : first.answer = some item) : s.next host fuel = some first := by
  rw [next, now, Option.bind_eq_bind, Option.bind_some, gives]

theorem next_of_end (now : s.nextHere host fuel = some first) (gives : first.answer = none)
    (ended : s.walk.next? = none) :
    s.next host fuel = some { first with search := { s with current := none } } := by
  rw [next, now, Option.bind_eq_bind, Option.bind_some, gives]
  dsimp only
  split
  · rfl
  · rename_i visited
    cases ended.symm.trans visited

theorem next_of_visit {d : D} {walk : Walk D} (now : s.nextHere host fuel = some first)
    (gives : first.answer = none) (visits : s.walk.next? = some (d, walk)) :
    s.next host fuel =
      (Search.next host fuel { s with current := some (find d s.pattern), walk }).map fun rest =>
        { rest with events := first.events ++ rest.events } := by
  rw [next, now, Option.bind_eq_bind, Option.bind_some, gives]
  dsimp only
  split
  · rename_i visited
    cases visits.symm.trans visited
  · rename_i visited
    cases visits.symm.trans visited
    rw [Option.map_eq_bind]
    rfl

end Next

theorem later_of_end {s : Search D K H} (ended : s.walk.next? = none) (depth : Nat) :
    s.later host depth = .done := by
  rw [later, Walk.toList_of_end ended]
  rfl

theorem later_of_visit {s : Search D K H} {d : D} {walk : Walk D}
    (visits : s.walk.next? = some (d, walk)) (depth : Nat) :
    s.later host depth =
      Search.course host depth { s with current := some (find d s.pattern), walk } := by
  rw [later, Walk.toList_of_visit visits]
  rfl

theorem next_trails {fuel : Nat} {s : Search D K H}
    {reply : SearchReply D K H (Option (Except MatchError (Env D)))}
    (returned : s.next host fuel = some reply) :
    ∃ lag, Trails lag (fun depth => s.course host depth) fun depth =>
      .events reply.calls (.opening reply.answer (reply.search.course host depth)) := by
  induction bound : s.walk.size using Nat.strongRecOn generalizing s reply with
  | ind n ih =>
      have now : ∃ first, s.nextHere host fuel = some first := by
        rw [next, Option.bind_eq_bind, Option.bind_eq_some_iff] at returned
        exact returned.imp fun first found => found.1
      rcases now with ⟨first, now⟩
      rcases nextHere_trails now with ⟨⟨lag, trails⟩, same⟩
      have onward := trails.append (s.later_grows host)
      simp only [Course.events_then] at onward
      cases gives : first.answer with
      | some item =>
          rw [next_of_item now gives] at returned
          cases returned
          refine ⟨lag, onward.congr fun depth => ?_⟩
          rw [gives, ← same]
          rfl
      | none =>
          simp only [gives, Course.opening, Course.done_append] at onward
          cases visits : s.walk.next? with
          | none =>
              rw [next_of_end now gives visits] at returned
              cases returned
              refine ⟨lag, onward.congr fun depth => ?_⟩
              rw [later_of_end visits, gives]
              rfl
          | some visit =>
              rcases visit with ⟨d, walk⟩
              rw [next_of_visit now gives visits, Option.map_eq_some_iff] at returned
              rcases returned with ⟨rest, returned, rfl⟩
              have fewer : walk.size < n := by
                rw [← bound, Walk.size_of_next? visits]
                exact Nat.lt_succ_self walk.size
              rcases ih walk.size fewer returned rfl with ⟨lag', trails'⟩
              have moves := onward.congr fun depth =>
                congrArg (Course.events first.calls) (later_of_visit visits depth)
              refine ⟨_, (moves.trans (trails'.events first.calls)).congr fun depth => ?_⟩
              rw [← Course.events_append]
              exact congrArg (Course.events · _) (Event.calls_append first.events rest.events).symm

theorem next_of_known {depth : Nat} {s : Search D K H} {calls : List (Call D H)}
    (known : (s.course host depth).eventsUntil 1 = some calls) :
    ∃ reply enough, ∀ fuel, enough ≤ fuel → s.next host fuel = some reply := by
  induction bound : s.walk.size using Nat.strongRecOn generalizing s calls depth with
  | ind n ih =>
      rcases Course.eventsUntil_of_append known with ⟨others, shown⟩
      rcases nextHere_of_known shown with ⟨first, enough, now⟩
      cases gives : first.answer with
      | some item => exact ⟨_, enough, fun fuel more => next_of_item (now fuel more) gives⟩
      | none =>
          cases visits : s.walk.next? with
          | none => exact ⟨_, enough, fun fuel more => next_of_end (now fuel more) gives visits⟩
          | some visit =>
              rcases visit with ⟨d, walk⟩
              rcases nextHere_trails (now enough (Nat.le_refl enough)) with ⟨⟨lag, trails⟩, -⟩
              have onward := trails.append (s.later_grows host)
              simp only [Course.events_then, gives, Course.opening, Course.done_append] at onward
              have shown := Course.eventsUntil_mono (onward depth).1 known
              rw [Course.eventsUntil_events, later_of_visit visits, Option.map_eq_some_iff] at shown
              rcases shown with ⟨others, shown, -⟩
              have fewer : walk.size < n := by
                rw [← bound, Walk.size_of_next? visits]
                exact Nat.lt_succ_self walk.size
              rcases ih walk.size fewer shown rfl with ⟨rest, enough', later⟩
              have reply (fuel : Nat) (more : max enough enough' ≤ fuel) :=
                (next_of_visit (now fuel (Nat.le_trans (Nat.le_max_left _ _) more)) gives visits).trans
                  (congrArg (Option.map _) (later fuel (Nat.le_trans (Nat.le_max_right _ _) more)))
              exact ⟨_, _, reply⟩

theorem take_succ {fuel : Nat} {s : Search D K H}
    {own : SearchReply D K H (Option (Except MatchError (Env D)))}
    (now : s.next host fuel = some own) (limit : Nat) :
    s.take host fuel (limit + 1) =
      match own.answer with
      | none => some ⟨⟨[], .exhausted⟩, own.events, own.search⟩
      | some item =>
        (own.search.take host fuel limit).map fun rest =>
          ⟨{ rest.answer with items := item :: rest.answer.items }, own.events ++ rest.events,
            rest.search⟩ := by
  rw [take, now, Option.bind_eq_bind, Option.bind_some]
  cases own.answer with
  | none => rfl
  | some item => exact (Option.map_eq_bind ..).symm

theorem take_of_returned {fuel limit : Nat} {s : Search D K H}
    {reply : SearchReply D K H (Results (Except MatchError (Env D)))}
    (returned : s.take host fuel limit = some reply) :
    ∃ depth, (s.course host depth).take limit = some (reply.answer, reply.calls) := by
  induction limit generalizing s reply with
  | zero =>
      cases returned
      exact ⟨0, Course.take_zero _⟩
  | succ limit ih =>
      have now : ∃ own, s.next host fuel = some own := by
        rw [take, Option.bind_eq_bind, Option.bind_eq_some_iff] at returned
        exact returned.imp fun own found => found.1
      rcases now with ⟨own, now⟩
      rcases next_trails now with ⟨lag, trails⟩
      rw [take_succ now] at returned
      cases gives : own.answer with
      | none =>
          simp only [gives] at returned trails
          cases returned
          refine ⟨0 + lag, Course.take_mono (trails 0).2 ?_⟩
          rw [Course.take_opening]
          rfl
      | some item =>
          simp only [gives] at returned trails
          rcases Option.map_eq_some_iff.mp returned with ⟨rest, others, rfl⟩
          rcases ih others with ⟨depth, known⟩
          refine ⟨depth + lag, Course.take_mono (trails depth).2 ?_⟩
          rw [Course.take_opening, known]
          exact congrArg (fun calls => some (_, calls)) (Event.calls_append own.events rest.events).symm

theorem returns_of_take {depth limit : Nat} {s : Search D K H}
    {taken : Results (Except MatchError (Env D)) × List (Call D H)}
    (known : (s.course host depth).take limit = some taken) :
    ∃ enough, ∀ fuel, enough ≤ fuel →
      ∃ reply, s.take host fuel limit = some reply ∧ (reply.answer, reply.calls) = taken := by
  induction limit generalizing s taken with
  | zero =>
      rw [Course.take_zero] at known
      cases known
      exact ⟨0, fun fuel _ => ⟨_, rfl, rfl⟩⟩
  | succ limit ih =>
      have first := Course.eventsUntil_of_le (Nat.le_add_left 1 limit) (Course.eventsUntil_of_take known)
      rcases first with ⟨calls, answered⟩
      rcases next_of_known answered with ⟨own, enough, now⟩
      rcases next_trails (now enough (Nat.le_refl enough)) with ⟨lag, trails⟩
      have shown := Course.take_mono (trails depth).1 known
      rw [Course.take_opening] at shown
      cases gives : own.answer with
      | none =>
          rw [gives] at shown
          cases shown
          have returned (fuel : Nat) (more : enough ≤ fuel) := take_succ (now fuel more) limit
          rw [gives] at returned
          exact ⟨enough, fun fuel more => ⟨_, returned fuel more, rfl⟩⟩
      | some item =>
          rw [gives] at shown
          rcases Option.map_eq_some_iff.mp shown with ⟨last, later, rfl⟩
          rcases ih later with ⟨enough', takes⟩
          refine ⟨max enough enough', fun fuel more => ?_⟩
          rcases takes fuel (Nat.le_trans (Nat.le_max_right _ _) more) with ⟨reply, others, rfl⟩
          have returned := take_succ (now fuel (Nat.le_trans (Nat.le_max_left _ _) more)) limit
          rw [gives, others] at returned
          exact ⟨_, returned, congrArg (Prod.mk _) (Event.calls_append own.events reply.events)⟩

end Search

end TreeQuery
