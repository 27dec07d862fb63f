import TreeQuery.Proofs.Enumerator.Onward
import TreeQuery.Proofs.Enumerator.Run

/-! What one request shows: its answer, the calls on the way to it, and the enumeration that it leaves.
The enumeration of a step of a path takes the same steps inside a larger search, which goes on from its
answer. -/

namespace TreeQuery

variable {D K H : Type}

def Enumerator.answer (left : Enumerator D K H) (found : Except MatchError Bool) :
    Except MatchError (Option (Env D)) :=
  found.map fun found => if found then some left.frame.captures else none

variable [TreeLike D K] [BEq D] [BEq K] {host : Host D K H}

namespace Machine

def Gives (host : Host D K H) (m : Machine D K H) (found : Except MatchError Bool)
    (calls : List (Call D H)) (left : Enumerator D K H) : Prop :=
  ∃ own, Halts host m own ∧ own.answer = found ∧ own.calls = calls ∧ own.enumerator = left

variable {m m' m'' : Machine D K H} {events : List (Event D K H)} {calls more : List (Call D H)}
  {found : Except MatchError Bool} {left : Enumerator D K H}

theorem gives_of_halt (now : m.step host = (events, .halt found left)) :
    m.Gives host found (Event.calls events) left :=
  ⟨_, .halt now, rfl, rfl, rfl⟩

theorem gives_next_iff (now : m.step host = (events, .next m')) :
    m.Gives host found more left ↔
      ∃ later, more = Event.calls events ++ later ∧ m'.Gives host found later left := by
  constructor
  · rintro ⟨own, halts, answer, calls, enumerator⟩
    cases halts with
    | halt again => cases (Prod.mk.inj (now.symm.trans again)).2
    | @next _ _ _ reply again later =>
        rcases Prod.mk.inj (now.symm.trans again) with ⟨rfl, moved⟩
        cases moved
        rw [Reply.calls_after] at calls
        exact ⟨reply.calls, calls.symm, reply, later, answer, rfl, enumerator⟩
  · rintro ⟨later, rfl, own, halts, answer, calls, enumerator⟩
    refine ⟨own.after events, .next now halts, answer, ?_, enumerator⟩
    rw [Reply.calls_after, calls]

theorem Reaches.one (now : m.step host = (events, .next m')) :
    Reaches host m (Event.calls events) m' := by
  have reaches : Reaches host m (Event.calls events ++ []) m' := .next now (.refl m')
  rwa [List.append_nil] at reaches

theorem Reaches.trans (first : Reaches host m calls m') (second : Reaches host m' more m'') :
    Reaches host m (calls ++ more) m'' := by
  induction first with
  | refl m => exact second
  | next now later ih =>
      rw [List.append_assoc]
      exact .next now (ih second)

theorem Reaches.gives_iff (reaches : Reaches host m calls m') :
    m.Gives host found more left ↔
      ∃ later, more = calls ++ later ∧ m'.Gives host found later left := by
  induction reaches generalizing more with
  | refl m => simp only [List.nil_append, exists_eq_left']
  | next now later ih =>
      rw [gives_next_iff now]
      constructor
      · rintro ⟨_, rfl, gives⟩
        rcases ih.mp gives with ⟨later, rfl, given⟩
        exact ⟨later, (List.append_assoc _ _ _).symm, given⟩
      · rintro ⟨later, rfl, given⟩
        exact ⟨_, List.append_assoc _ _ _, ih.mpr ⟨later, rfl, given⟩⟩

theorem Reaches.halt (reaches : Reaches host m calls m')
    (now : m'.step host = (events, .halt found left)) :
    m.Gives host found (calls ++ Event.calls events) left :=
  reaches.gives_iff.mpr ⟨_, rfl, gives_of_halt now⟩

theorem Gives.exists_last (gives : m.Gives host found calls left) :
    ∃ before last events, Reaches host m before last ∧ last.step host = (events, .halt found left) ∧
      calls = before ++ Event.calls events := by
  rcases gives with ⟨own, halts, rfl, rfl, rfl⟩
  induction halts with
  | halt now => exact ⟨[], _, _, .refl _, now, rfl⟩
  | next now later ih =>
      rcases ih with ⟨before, last, events, reaches, halts, calls⟩
      refine ⟨_, last, events, .next now reaches, halts, ?_⟩
      rw [Reply.calls_after, calls, List.append_assoc]

theorem Step.under (step : Step host m events (.next m')) (waiting : List (Waiting D K H)) :
    Step host (m.under waiting) events (.next (m'.under waiting)) := by
  cases step with
  | proceed turns => exact .proceed turns
  | fail turns => exact .fail turns
  | descend turns => exact .descend turns
  | adopt ready leads => exact .adopt ready leads
  | resume latest => exact .resume latest
  | reopen latest => exact .reopen latest
  | barren idle => exact .barren idle

theorem Reaches.under (reaches : Reaches host m calls m') (waiting : List (Waiting D K H)) :
    Reaches host (m.under waiting) calls (m'.under waiting) := by
  induction reaches with
  | refl m => exact .refl _
  | next now later ih => exact .next (eq_of_step ((step_of_eq now).under waiting)) ih

theorem Halts.exists_inner {whole : Machine D K H} {reply : Reply D K H (Except MatchError Bool)}
    {waiting : List (Waiting D K H)} (halts : Halts host whole reply) (inside : whole = m.under waiting) :
    ∃ own, Halts host m own := by
  induction halts generalizing m with
  | halt now =>
      subst inside
      rcases own : m.step host with ⟨events, ⟨m'⟩ | ⟨found, left⟩⟩
      · have steps := eq_of_step ((step_of_eq own).under waiting)
        cases (Prod.mk.inj (now.symm.trans steps)).2
      · exact ⟨_, .halt own⟩
  | next now later ih =>
      subst inside
      rcases own : m.step host with ⟨events, ⟨m'⟩ | ⟨found, left⟩⟩
      · have steps := eq_of_step ((step_of_eq own).under waiting)
        rcases ih (Turn.next.inj (Prod.mk.inj (now.symm.trans steps)).2) with ⟨reply, halts⟩
        exact ⟨_, .next own halts⟩
      · exact ⟨_, .halt own⟩

variable {w : Waiting D K H} {waiting : List (Waiting D K H)} {error : MatchError}

theorem Gives.adopted (gives : m.Gives host (.ok true) calls left)
    (leads : w.leg.dangling? w.outer.config left.frame.marks = none) :
    Reaches host (m.under (w :: waiting)) calls
      ⟨(w.outer.adopt w.leg left).2, .working, waiting⟩ := by
  rcases gives.exists_last with ⟨before, last, events, reaches, halts, rfl⟩
  refine (reaches.under (w :: waiting)).trans ?_
  cases step_of_eq halts with
  | @solved e ready =>
      have adopts : Step host ⟨e, .working, w :: waiting⟩ _ _ := .adopt ready leads
      have reached := Reaches.one (eq_of_step adopts)
      rwa [Event.calls_append, calls_adopt, List.append_nil] at reached

theorem Gives.dangled (gives : m.Gives host (.ok true) calls left)
    (dangles : w.leg.dangling? w.outer.config left.frame.marks = some error) :
    ∃ last, (m.under (w :: waiting)).Gives host (.error error) calls last := by
  rcases gives.exists_last with ⟨before, last, events, reaches, halts, rfl⟩
  cases step_of_eq halts with
  | @solved e ready =>
      exact ⟨_, (reaches.under (w :: waiting)).halt (eq_of_step (.dangling ready dangles))⟩

theorem Gives.exhausted (gives : m.Gives host (.ok false) calls left) :
    Reaches host (m.under (w :: waiting)) calls
      ⟨w.outer, .retreating (Origin.giveUp w w.origin).2, waiting⟩ := by
  rcases gives.exists_last with ⟨before, last, events, reaches, halts, rfl⟩
  refine (reaches.under (w :: waiting)).trans ?_
  cases step_of_eq halts with
  | @exhausted e phase idle =>
      have barren : Step host ⟨e, phase, w :: waiting⟩ _ _ := .barren idle
      have reached := Reaches.one (eq_of_step barren)
      rw [Event.calls_append, calls_closing, calls_giveUp] at reached
      rwa [calls_closing]

theorem Gives.aborted (gives : m.Gives host (.error error) calls left) :
    ∃ last, (m.under (w :: waiting)).Gives host (.error error) calls last := by
  rcases gives.exists_last with ⟨before, last, events, reaches, halts, rfl⟩
  have whole := reaches.under (w :: waiting)
  cases step_of_eq halts with
  | abort turns => exact ⟨_, whole.halt (eq_of_step (.abort turns))⟩
  | dangling ready dangles => exact ⟨_, whole.halt (eq_of_step (.dangling ready dangles))⟩

end Machine

namespace Enumerator

/-- Asked for its next solution the enumeration gives the answer, and it makes the calls on the way to
it. `left` is the enumeration afterwards. -/
def Delivers (host : Host D K H) (e : Enumerator D K H) (answer : Except MatchError (Option (Env D)))
    (calls : List (Call D H)) (left : Enumerator D K H) : Prop :=
  ∃ fuel reply, e.advance host fuel = some reply ∧
    reply.answer = answer ∧ reply.calls = calls ∧ reply.enumerator = left

/-- Requests to the enumeration give solutions one after the other, each with the calls that are made
for it. `left` is the enumeration after the last of them. -/
inductive Yields (host : Host D K H) :
    Enumerator D K H → List (Env D × List (Call D H)) → Enumerator D K H → Prop where
  | nil (e : Enumerator D K H) : Yields host e [] e
  | cons {e next left : Enumerator D K H} {env : Env D} {calls : List (Call D H)}
      {solutions : List (Env D × List (Call D H))} (now : e.Delivers host (.ok (some env)) calls next)
      (later : Yields host next solutions left) : Yields host e ((env, calls) :: solutions) left

/-- Asked for its next solution, the enumeration makes the calls and then goes on exactly as the other
one: either both return or neither does, with the same answer, and they leave the same enumeration. -/
def ContinuesAs (host : Host D K H) (e : Enumerator D K H) (calls : List (Call D H))
    (e' : Enumerator D K H) : Prop :=
  ∀ answer more left, e.Delivers host answer more left ↔
    ∃ later, more = calls ++ later ∧ e'.Delivers host answer later left

variable {e e' left : Enumerator D K H} {calls : List (Call D H)} {env : Env D}

theorem delivers_iff {answer : Except MatchError (Option (Env D))} :
    e.Delivers host answer calls left ↔
      ∃ found, (Machine.ask e []).Gives host found calls left ∧ left.answer found = answer := by
  constructor
  · rintro ⟨fuel, reply, returned, rfl, rfl, rfl⟩
    rcases halts_of_advance returned with ⟨own, halts, rfl⟩
    exact ⟨own.answer, ⟨own, halts, rfl, rfl, rfl⟩, rfl⟩
  · rintro ⟨found, ⟨own, halts, rfl, rfl, rfl⟩, rfl⟩
    rcases advance_of_halts halts with ⟨enough, returns⟩
    exact ⟨enough, own.withBindings, returns enough (Nat.le_refl enough), rfl, rfl, rfl⟩

theorem delivers_solution_iff :
    e.Delivers host (.ok (some env)) calls left ↔
      (Machine.ask e []).Gives host (.ok true) calls left ∧ left.frame.captures = env := by
  rw [delivers_iff]
  constructor
  · rintro ⟨error | _ | _, gives, answer⟩
    · cases answer
    · cases answer
    · cases answer
      exact ⟨gives, rfl⟩
  · rintro ⟨gives, rfl⟩
    exact ⟨.ok true, gives, rfl⟩

theorem delivers_end_iff :
    e.Delivers host (.ok none) calls left ↔ (Machine.ask e []).Gives host (.ok false) calls left := by
  rw [delivers_iff]
  constructor
  · rintro ⟨error | _ | _, gives, answer⟩
    · cases answer
    · exact gives
    · cases answer
  · intro gives
    exact ⟨.ok false, gives, rfl⟩

theorem delivers_error_iff {error : MatchError} :
    e.Delivers host (.error error) calls left ↔
      (Machine.ask e []).Gives host (.error error) calls left := by
  rw [delivers_iff]
  constructor
  · rintro ⟨raised | _ | _, gives, answer⟩
    · cases answer
      exact gives
    · cases answer
    · cases answer
  · intro gives
    exact ⟨.error error, gives, rfl⟩

theorem continuesAs_of_gives
    (same : ∀ found more left, (Machine.ask e []).Gives host found more left ↔
      ∃ later, more = calls ++ later ∧ (Machine.ask e' []).Gives host found later left) :
    e.ContinuesAs host calls e' := by
  intro answer more left
  simp only [delivers_iff, same]
  constructor
  · rintro ⟨found, ⟨later, rfl, gives⟩, answer⟩
    exact ⟨later, rfl, found, gives, answer⟩
  · rintro ⟨later, rfl, found, gives, answer⟩
    exact ⟨found, ⟨later, rfl, gives⟩, answer⟩

theorem Yields.progress_ne {solutions : List (Env D × List (Call D H))}
    (yields : e.Yields host solutions left) (going : e.progress ≠ .exhausted) :
    left.progress ≠ .exhausted := by
  induction yields with
  | nil e => exact going
  | cons now later ih =>
      refine ih fun exhausted => ?_
      rcases (delivers_solution_iff.mp now).1 with ⟨own, halts, answer, _, rfl⟩
      rcases halts.progress with ⟨_, yielded⟩ | ⟨other, _⟩
      · rw [yielded] at exhausted
        cases exhausted
      · exact other answer

end Enumerator

end TreeQuery
