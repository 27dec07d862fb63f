import TreeQuery.Find
import TreeQuery.Proofs.Enumerator.Run
import TreeQuery.Tree

/-! Requests to one enumeration in any order. A reset takes the enumeration back to its beginning,
whatever has happened before, and between resets the replies are those of a new enumeration. -/

namespace TreeQuery

variable {D K H : Type}

def Turn.outermost : Turn D K H → Enumerator D K H
  | .next m => m.outermost
  | .halt _ e => e

namespace Machine

theorem outermost_cons (e : Enumerator D K H) (phase phase' : Phase) (w : Waiting D K H)
    (waiting : List (Waiting D K H)) :
    outermost ⟨e, phase, w :: waiting⟩ = outermost ⟨w.outer, phase', waiting⟩ := by
  cases waiting with
  | nil => rfl
  | cons w' waiting => rfl

theorem reset_outermost {e e' : Enumerator D K H} (same : e'.reset = e.reset)
    (phase phase' : Phase) (waiting : List (Waiting D K H)) :
    (outermost ⟨e', phase', waiting⟩).reset = (outermost ⟨e, phase, waiting⟩).reset := by
  cases waiting with
  | nil => exact same
  | cons w waiting => rw [outermost_cons e' phase' phase, outermost_cons e phase phase]

theorem reset_outermost_adopt (e nested : Enumerator D K H) (phase : Phase) (w : Waiting D K H)
    (waiting : List (Waiting D K H)) :
    (outermost ⟨(w.outer.adopt w.leg nested).2, phase, waiting⟩).reset =
      (outermost ⟨e, phase, w :: waiting⟩).reset := by
  have same : (w.outer.adopt w.leg nested).2.reset = w.outer.reset := rfl
  rw [outermost_cons e phase phase]
  exact reset_outermost same phase phase waiting

theorem outermost_ask (e : Enumerator D K H) (w : Waiting D K H) (waiting : List (Waiting D K H))
    (phase : Phase) :
    (ask e (w :: waiting)).outermost = outermost ⟨w.outer, phase, waiting⟩ :=
  outermost_cons e _ phase w waiting

variable [TreeLike D K] [BEq D] [BEq K] {host : Host D K H}

theorem Step.reset_outermost {m : Machine D K H} {events : List (Event D K H)} {turn : Turn D K H}
    (step : Step host m events turn) : turn.outermost.reset = m.outermost.reset := by
  cases step with
  | @proceed e waiting work calls live others turns =>
      have same : (e.branch live others).reset = e.reset := rfl
      exact Machine.reset_outermost same _ _ waiting
  | @fail e waiting work calls turns =>
      have same : (e.drop work).reset = e.reset := rfl
      exact Machine.reset_outermost same _ _ waiting
  | @abort e waiting work calls error turns =>
      have same : (e.drop work).reset = e.reset := rfl
      exact Machine.reset_outermost same .working .working waiting
  | @descend e waiting work calls datum pattern leg turns =>
      have same : (e.drop work).reset = e.reset := rfl
      rw [Turn.outermost, outermost_ask _ _ _ .working]
      exact Machine.reset_outermost same _ _ waiting
  | solved ready => rfl
  | @dangling e w waiting error ready dangles => exact reset_outermost_adopt e e.yield _ w waiting
  | @adopt e w waiting ready leads => exact reset_outermost_adopt e e.yield _ w waiting
  | @resume e waiting announce frame choices latest =>
      have same : ({ e with frame, choices } : Enumerator D K H).reset = e.reset := rfl
      exact Machine.reset_outermost same _ _ waiting
  | @reopen e waiting announce leg nested choices latest =>
      have same : (e.pop choices).reset = e.reset := rfl
      rw [Turn.outermost, outermost_ask _ _ _ .working]
      exact Machine.reset_outermost same _ _ waiting
  | exhausted idle => rfl
  | barren idle =>
      rw [outermost_cons _ _ .working]
      exact Machine.reset_outermost rfl _ _ _

theorem Halts.reset_eq {m : Machine D K H} {reply : Reply D K H (Except MatchError Bool)}
    (halts : Halts host m reply) : reply.enumerator.reset = m.outermost.reset := by
  induction halts with
  | halt now => exact (step_of_eq now).reset_outermost
  | next now later ih => exact ih.trans (step_of_eq now).reset_outermost

end Machine

inductive Request where
  | advance
  | next
  | reset
  deriving DecidableEq

inductive Answer (D : Type) where
  | advanced (answer : Except MatchError (Option (Env D)))
  | given (item : Option (Except MatchError (Env D)))
  | rewound

namespace Request

def view (request : Request) (answer : Except MatchError (Option (Env D))) : Answer D :=
  match request with
  | .advance => .advanced answer
  | .next =>
    .given (match answer with
      | .ok env => env.map .ok
      | .error error => some (.error error))
  | .reset => .rewound

def tick (count : Nat) (request : Request) : Nat := if request = .reset then 0 else count + 1

def sinceReset (requests : List Request) : Nat := requests.foldl tick 0

theorem sinceReset_take_succ {requests : List Request} {i : Nat} {request : Request}
    (asked : requests[i]? = some request) (solves : request ≠ .reset) :
    sinceReset (requests.take (i + 1)) = sinceReset (requests.take i) + 1 := by
  rw [List.take_add_one, asked, sinceReset, List.foldl_append]
  simp only [Option.toList_some, List.foldl_cons, List.foldl_nil, tick, solves, if_false]
  rfl

theorem sinceReset_take_lt {requests : List Request} {i j : Nat} (before : i < j)
    (asked : j ≤ requests.length)
    (solves : ∀ l, i ≤ l → l < j → requests[l]? ≠ some .reset) :
    sinceReset (requests.take i) < sinceReset (requests.take j) := by
  induction before with
  | refl =>
      have found : requests[i]? = some requests[i] := List.getElem?_eq_getElem asked
      have solve : requests[i] ≠ .reset := fun reset =>
        solves i (Nat.le_refl i) (Nat.lt_succ_self i) (by rw [found, reset])
      rw [sinceReset_take_succ found solve]
      exact Nat.lt_succ_self _
  | @step j before ih =>
      have found : requests[j]? = some requests[j] := List.getElem?_eq_getElem asked
      have solve : requests[j] ≠ .reset := fun reset =>
        solves j (Nat.le_of_lt before) (Nat.lt_succ_self j) (by rw [found, reset])
      have earlier := ih (Nat.le_of_lt asked) fun l low high =>
        solves l low (Nat.lt_succ_of_lt high)
      rw [sinceReset_take_succ found solve]
      exact Nat.lt_succ_of_lt earlier

end Request

def Answer.Final : Answer D → Prop
  | .advanced answer => ∀ env, answer ≠ .ok (some env)
  | .given item => ∀ env, item ≠ some (.ok env)
  | .rewound => False

instance (answer : Answer D) : Decidable answer.Final :=
  match answer with
  | .advanced (.ok (some env)) => .isFalse fun final => final env rfl
  | .advanced (.ok none) | .advanced (.error _) => .isTrue nofun
  | .given (some (.ok env)) => .isFalse fun final => final env rfl
  | .given none | .given (some (.error _)) => .isTrue nofun
  | .rewound => .isFalse id

theorem Answer.final_view {request : Request} {answer : Except MatchError (Option (Env D))}
    (final : (request.view answer).Final) (env : Env D) : answer ≠ .ok (some env) := by
  rintro rfl
  cases request with
  | advance => exact final env rfl
  | next => exact final env rfl
  | reset => exact final

variable [TreeLike D K] [BEq D] [BEq K] {host : Host D K H}

namespace Enumerator

def serve (host : Host D K H) (fuel : Nat) (e : Enumerator D K H) :
    Request → Option (Reply D K H (Answer D))
  | .advance =>
    (e.advance host fuel).map fun reply => { reply with answer := .advanced reply.answer }
  | .next => (e.next host fuel).map fun reply => { reply with answer := .given reply.answer }
  | .reset => some ⟨.rewound, [], e.reset⟩

def serveAll (host : Host D K H) (fuel : Nat) :
    List Request → Enumerator D K H → Option (List (Reply D K H (Answer D)))
  | [], _ => some []
  | request :: requests, e => do
    let reply ← e.serve host fuel request
    let later ← serveAll host fuel requests reply.enumerator
    some (reply :: later)

theorem serve_eq {request : Request} (solves : request ≠ .reset) (fuel : Nat)
    (e : Enumerator D K H) :
    e.serve host fuel request =
      (e.advance host fuel).map fun reply => { reply with answer := request.view reply.answer } := by
  cases request with
  | advance => rfl
  | next =>
      rw [serve, next, Option.map_map]
      rfl
  | reset => exact absurd rfl solves

theorem silent_of_advances {fuel earlier later : Nat} {e : Enumerator D K H}
    {past past' : List (Reply D K H (Except MatchError (Option (Env D))))}
    {own own' : Reply D K H (Except MatchError (Option (Env D)))} (before : earlier < later)
    (returned : e.advances host fuel (earlier + 1) = some (past ++ [own]))
    (returned' : e.advances host fuel (later + 1) = some (past' ++ [own'])) (final : Final own) :
    Silent own' := by
  rcases Nat.exists_eq_add_of_lt before with ⟨more, counted⟩
  have split : later + 1 = earlier + 1 + (more + 1) := by omega
  have fused := (answers_of_advances returned').1.fused
  rw [split, advances_add returned, Option.map_eq_some_iff] at returned'
  rcases returned' with ⟨rest, others, whole⟩
  have length := (answers_of_advances others).2
  rcases List.eq_nil_or_concat rest with rfl | ⟨init, last, rfl⟩
  · cases length
  · rw [List.concat_eq_append, ← List.append_assoc] at whole
    have same := congrArg List.getLast? whole
    rw [List.getLast?_concat, List.getLast?_concat, Option.some.injEq] at same
    rw [← whole, List.pairwise_append] at fused
    rw [← same]
    exact fused.2.2 own (List.mem_append_left _ List.mem_concat_self) last
      (List.mem_singleton_self last) final

/-- Serving goes on from an enumeration that has given some replies since its beginning `fresh`. Each
reply is one of the new enumeration, found by the number of requests since the last reset. -/
theorem serveAll_spec {fuel count : Nat} {fresh e : Enumerator D K H}
    {first : List (Reply D K H (Except MatchError (Option (Env D))))} {requests : List Request}
    {replies : List (Reply D K H (Answer D))} (begins : e.reset = fresh)
    (past : fresh.advances host fuel count = some first) (present : fresh.leftBy first = e)
    (returned : e.serveAll host fuel requests = some replies) :
    replies.length = requests.length ∧
      ∀ i request reply, requests[i]? = some request → replies[i]? = some reply →
        request ≠ .reset →
        ∃ before own,
          fresh.advances host fuel ((requests.take i).foldl Request.tick count + 1) =
            some (before ++ [own]) ∧
          reply.answer = request.view own.answer ∧ reply.events = own.events := by
  induction requests generalizing e count first replies with
  | nil =>
      cases returned
      exact ⟨rfl, fun i request reply asked => absurd asked (by simp)⟩
  | cons request requests ih =>
      simp only [serveAll, Option.bind_eq_bind, Option.bind_eq_some_iff, Option.some.injEq]
        at returned
      rcases returned with ⟨reply, served, later, others, rfl⟩
      -- A reset starts the count anew; any other request is one more reply of the same enumeration.
      by_cases reset : request = .reset
      · cases reset
        cases served
        have begins' : e.reset.reset = fresh := begins
        have past' : fresh.advances host fuel 0 = some [] := rfl
        have present' : fresh.leftBy [] = e.reset := begins.symm
        rcases ih begins' past' present' others with ⟨length, law⟩
        constructor
        · exact congrArg (· + 1) length
        intro i request reply asked answered solves
        cases i with
        | zero => exact absurd (Option.some.inj asked).symm solves
        | succ i => exact law i request reply asked answered solves
      · rw [serve_eq reset, Option.map_eq_some_iff] at served
        rcases served with ⟨own, advanced, rfl⟩
        have more := advances_add past 1
        rw [present, advances_one, advanced] at more
        have present' : fresh.leftBy (first ++ [own]) = own.enumerator := by
          rw [leftBy, List.foldl_append]
          rfl
        have begins' : own.enumerator.reset = fresh := by
          rcases halts_of_advance advanced with ⟨solved, halts, rfl⟩
          exact halts.reset_eq.trans begins
        rcases ih begins' more present' others with ⟨length, law⟩
        constructor
        · exact congrArg (· + 1) length
        intro i request' reply asked answered solves
        cases i with
        | zero =>
            cases asked
            cases answered
            exact ⟨first, own, more, rfl, rfl⟩
        | succ i =>
            have counted : Request.tick count request = count + 1 := if_neg reset
            rw [List.take_succ_cons, List.foldl_cons, counted]
            exact law i request' reply asked answered solves

end Enumerator

/-- The replies to requests in any order. Each reply to `advance` or `next` is the one that a new
enumeration gives to as many requests as there have been since the last reset, with the same events.
After the end of the enumeration or an error there are no more solutions and no more events until the
next reset. -/
theorem serveAll_new (host : Host D K H) (root : D) (pattern : Pattern D K H) (config : MatchConfig)
    {fuel : Nat} {requests : List Request} {replies : List (Reply D K H (Answer D))}
    (returned : (Enumerator.new root pattern config).serveAll host fuel requests = some replies) :
    replies.length = requests.length ∧
      (∀ i request reply, requests[i]? = some request → replies[i]? = some reply →
        request ≠ .reset →
        ∃ before own,
          (Enumerator.new root pattern config).advances host fuel
            (Request.sinceReset (requests.take i) + 1) = some (before ++ [own]) ∧
          reply.answer = request.view own.answer ∧ reply.events = own.events) ∧
      ∀ (i j : Nat) (request : Request) (reply later : Reply D K H (Answer D)),
        i < j → (∀ l, i ≤ l → l ≤ j → requests[l]? ≠ some .reset) →
        replies[i]? = some reply → reply.answer.Final →
        requests[j]? = some request → replies[j]? = some later →
        later.answer = request.view (.ok none) ∧ later.events = [] := by
  have begins : (Enumerator.new root pattern config).reset = .new root pattern config := rfl
  have past : (Enumerator.new root pattern config).advances host fuel 0 = some [] := rfl
  rcases Enumerator.serveAll_spec begins past rfl returned with ⟨length, law⟩
  refine ⟨length, law, ?_⟩
  intro i j request reply later before solves answered final asked' answered'
  have bound : i < requests.length := by
    rw [← length]
    exact (List.getElem?_eq_some_iff.mp answered).1
  have asked : requests[i]? = some requests[i] := List.getElem?_eq_getElem bound
  have solve : requests[i] ≠ .reset := fun reset =>
    solves i (Nat.le_refl i) (Nat.le_of_lt before) (by rw [asked, reset])
  have solve' : request ≠ .reset := fun reset =>
    solves j (Nat.le_of_lt before) (Nat.le_refl j) (by rw [asked', reset])
  have bound' : j < requests.length := (List.getElem?_eq_some_iff.mp asked').1
  have fewer := Request.sinceReset_take_lt before (Nat.le_of_lt bound') fun l low high =>
    solves l low (Nat.le_of_lt high)
  rcases law i _ reply asked answered solve with ⟨past, own, advanced, view, _⟩
  rcases law j request later asked' answered' solve' with ⟨past', own', advanced', view', events⟩
  rw [view] at final
  have silent := Enumerator.silent_of_advances fewer advanced advanced' (Answer.final_view final)
  rw [view', events, silent.1, silent.2]
  exact ⟨rfl, rfl⟩

theorem serveAll_new_captures :
    let fresh : Enumerator Tree String Unit := .new (.int 1) (.or (.capture "x") (.capture "y")) {}
    let host : Host Tree String Unit := ⟨fun _ _ => .ok true, fun _ _ => .ok .wild⟩
    let requests : List Request := [.advance, .reset, .next, .advance, .next, .advance]
    ∃ replies, fresh.serveAll host 20 requests = some replies ∧
      (∃ reply before own, replies[3]? = some reply ∧
        fresh.advances host 20 2 = some (before ++ [own]) ∧
        reply.answer = .advanced own.answer ∧ reply.events = own.events) ∧
      ∃ reply later, replies[4]? = some reply ∧ reply.answer.Final ∧ replies[5]? = some later ∧
        later.answer = .advanced (.ok none) ∧ later.events = [] := by
  intro fresh host requests
  have evaluated : (fresh.serveAll host 20 requests).map
      (List.map fun reply => decide reply.answer.Final) =
        some [false, false, false, false, true, true] := by decide
  rcases Option.map_eq_some_iff.mp evaluated with ⟨replies, returned, finals⟩
  have law := serveAll_new host (.int 1) (.or (.capture "x") (.capture "y")) {} returned
  have length : replies.length = 6 := law.1
  have answered (i : Nat) (bound : i < 6) :
      ∃ reply, replies[i]? = some reply ∧ [false, false, false, false, true, true][i]? =
        some (decide reply.answer.Final) := by
    rw [← finals, List.getElem?_map, List.getElem?_eq_getElem (length ▸ bound)]
    exact ⟨_, rfl, rfl⟩
  rcases answered 3 (by decide) with ⟨third, third_eq, _⟩
  rcases answered 4 (by decide) with ⟨fourth, fourth_eq, final⟩
  rcases answered 5 (by decide) with ⟨fifth, fifth_eq, _⟩
  have final' : fourth.answer.Final := of_decide_eq_true (Option.some.inj final).symm
  have solves : ∀ l, 4 ≤ l → l ≤ 5 → requests[l]? ≠ some Request.reset := by
    intro l low high
    have last : l = 4 ∨ l = 5 := by omega
    rcases last with rfl | rfl <;> decide
  refine ⟨replies, returned, ?_, ⟨fourth, fifth, fourth_eq, final', fifth_eq, ?_⟩⟩
  · rcases law.2.1 3 .advance third rfl third_eq (by decide) with ⟨before, own, advanced, view, events⟩
    exact ⟨third, before, own, third_eq, advanced, view, events⟩
  · exact law.2.2 4 5 .advance fourth fifth (by decide) solves fourth_eq final' rfl fifth_eq

end TreeQuery
