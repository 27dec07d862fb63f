import TreeQuery.Find
import TreeQuery.Proofs.Enumerator.Framing
import TreeQuery.Tree

/-! Choice points are snapshots: a request leaves them as they are until the search goes back to them. -/

namespace TreeQuery

variable {D K H : Type}

namespace Enumerator

variable [TreeLike D K] [BEq D] [BEq K]

/-- What a request does with the step of a path that is the latest choice point. It waits for the enumeration
of the step, which goes on from the solution that it gave last. The next solution is followed with its own
bindings, and with the work and the marks that were saved with the step, once for each mark in turn; the
step is kept below, for the solutions after it. -/
structure Reopens (host : Host D K H) (e : Enumerator D K H) (leg : Leg D K H)
    (nested : Enumerator D K H) (choices : List (Choice D K H)) : Prop where
  asked {answer calls last} (delivers : e.Delivers host answer calls last) :
    ∃ answer calls solved, nested.Delivers host answer calls solved
  marked {env calls solved mark marks} (next : nested.Delivers host (.ok (some env)) calls solved)
    (selects : solved.frame.marks = mark :: marks) :
    e.ContinuesAs host calls (e.exploring ⟨env, leg.next mark :: leg.work, leg.marks⟩
      (marks.map (fun mark => .resume ⟨env, leg.next mark :: leg.work, leg.marks⟩) ++
        .tail leg solved :: choices))
  unmarked {env calls solved} (next : nested.Delivers host (.ok (some env)) calls solved)
    (selects : solved.frame.marks = []) (leads : leg.dangling? e.config [] = none) :
    e.ContinuesAs host calls (e.exploring ⟨env, leg.work, leg.marks⟩ (.tail leg solved :: choices))
  dangling {env calls solved error} (next : nested.Delivers host (.ok (some env)) calls solved)
    (selects : solved.frame.marks = []) (dangles : leg.dangling? e.config [] = some error) :
    ∃ last, e.Delivers host (.error error) calls last
  ended {calls last} (ends : nested.Delivers host (.ok none) calls last) :
    e.ContinuesAs host calls (e.backTo choices)
  failed {calls last error} (fails : nested.Delivers host (.error error) calls last) :
    ∃ last, e.Delivers host (.error error) calls last

structure Backtracks (host : Host D K H) (e : Enumerator D K H) : Prop where
  resumed {frame choices} (latest : e.choices = .resume frame :: choices) :
    e.ContinuesAs host [] (e.exploring frame choices)
  reopened {leg nested choices} (latest : e.choices = .tail leg nested :: choices) :
    e.Reopens host leg nested choices
  bottom (bottom : e.choices = []) : e.Delivers host (.ok none) [] e.finish

variable {host : Host D K H} {e nested solved : Enumerator D K H} {leg : Leg D K H}
  {choices : List (Choice D K H)} {calls : List (Call D H)} {env : Env D}

theorem reaches_nested (yielded : e.progress = .yielded)
    (latest : e.choices = .tail leg nested :: choices) :
    Machine.Reaches host (.ask e []) []
      ((Machine.ask nested []).under [⟨e.pop choices, leg, .again false⟩]) := by
  have reopens : Machine.Step host ⟨e, .retreating false, []⟩ _ _ := .reopen latest
  have reached := Machine.Reaches.one (Machine.eq_of_step reopens)
  rw [Event.calls_note] at reached
  rw [ask_of_yielded yielded]
  exact reached

theorem exists_error_of_nested {error : MatchError} (yielded : e.progress = .yielded)
    (latest : e.choices = .tail leg nested :: choices)
    (raised : ∃ last, ((Machine.ask nested []).under [⟨e.pop choices, leg, .again false⟩]).Gives host
      (.error error) calls last) :
    ∃ last, e.Delivers host (.error error) calls last := by
  rcases raised with ⟨last, gives⟩
  have whole := (reaches_nested yielded latest).gives_iff.mpr ⟨calls, rfl, gives⟩
  exact ⟨last, delivers_error_iff.mpr whole⟩

theorem continuesAs_exits (yielded : e.progress = .yielded)
    (latest : e.choices = .tail leg nested :: choices)
    (next : nested.Delivers host (.ok (some env)) calls solved)
    (leads : leg.dangling? e.config solved.frame.marks = none) :
    let exits := leg.exits env solved.frame.marks
    e.ContinuesAs host calls
      (e.exploring exits.1 (exits.2.map .resume ++ .tail leg solved :: choices)) := by
  intro exits
  rcases delivers_solution_iff.mp next with ⟨gives, rfl⟩
  have asked : Machine.Reaches host _ [] _ := reaches_nested yielded latest
  exact continuesAs_of_reaches (asked.trans (gives.adopted leads)) (.of_progress _ .searching) .working

theorem reopens (yielded : e.progress = .yielded) (latest : e.choices = .tail leg nested :: choices) :
    e.Reopens host leg nested choices where
  asked delivers := by
    rcases delivers_iff.mp delivers with ⟨found, gives, _⟩
    rcases (reaches_nested yielded latest).gives_iff.mp gives with ⟨_, _, own, halts, _⟩
    rcases halts.exists_inner rfl with ⟨inner, halts⟩
    exact ⟨_, inner.calls, inner.enumerator, delivers_iff.mpr ⟨_, ⟨inner, halts, rfl, rfl, rfl⟩, rfl⟩⟩
  marked {env calls solved mark marks} next selects := by
    have leads : leg.dangling? e.config solved.frame.marks = none := by
      simp [Leg.dangling?, selects]
    have continues := continuesAs_exits yielded latest next leads
    rw [selects] at continues
    simp only [Leg.exits, List.map_map] at continues
    exact continues
  unmarked next selects leads := by
    have continues := continuesAs_exits yielded latest next (selects ▸ leads)
    rw [selects] at continues
    exact continues
  dangling {env calls solved error} next selects dangles := by
    let w : Waiting D K H := ⟨e.pop choices, leg, .again false⟩
    have raises : w.leg.dangling? w.outer.config solved.frame.marks = some error := selects ▸ dangles
    have raised : ∃ last, ((Machine.ask nested []).under [w]).Gives host (.error error) calls last :=
      (delivers_solution_iff.mp next).1.dangled raises
    exact exists_error_of_nested yielded latest raised
  ended ends := by
    have gives := delivers_end_iff.mp ends
    have asked : Machine.Reaches host _ [] _ := reaches_nested yielded latest
    exact continuesAs_of_reaches (asked.trans gives.exhausted) (.of_progress _ .yielded)
      (.retreating false false)
  failed {calls last error} fails := by
    exact exists_error_of_nested yielded latest (delivers_error_iff.mp fails).aborted

theorem backtracks (yielded : e.progress = .yielded) : e.Backtracks host where
  resumed {frame choices} latest := by
    have resumes : Machine.Step host ⟨e, .retreating false, []⟩ _ _ := .resume latest
    have reached := Machine.Reaches.one (Machine.eq_of_step resumes)
    rw [Event.calls_note, ← ask_of_yielded yielded] at reached
    exact continuesAs_of_reaches reached (.of_progress _ .searching) .working
  reopened latest := reopens yielded latest
  bottom bottom := by
    have idle : Machine.Idle ⟨e, .retreating false, []⟩ := .inr ⟨false, rfl, bottom⟩
    have exhausted : Machine.Step host ⟨e, .retreating false, []⟩ _ _ := .exhausted idle
    have gives := Machine.gives_of_halt (Machine.eq_of_step exhausted)
    rw [Machine.calls_closing, ← ask_of_yielded yielded] at gives
    exact delivers_end_iff.mpr gives

end Enumerator

/-- Choice points below those of an enumeration have no part in its search as long as it has others to go
back to. Above them it gives the same solutions with the same calls, and leaves them as they are, below
what it has saved itself; an error is the same above them. Where it would have come to its end it goes back
to them instead, exactly as if there had never been any others, and takes up the latest as it was saved. -/
theorem choices_framed [TreeLike D K] [BEq D] [BEq K] (host : Host D K H) {e : Enumerator D K H}
    (going : e.progress ≠ .exhausted) (base : List (Choice D K H))
    {solutions : List (Env D × List (Call D H))} {left : Enumerator D K H}
    (yields : e.Yields host solutions left) :
    (e.above base).Yields host solutions (left.above base) ∧
      (∀ error calls last, left.Delivers host (.error error) calls last →
        (left.above base).Delivers host (.error error) calls (last.above base)) ∧
      ∀ calls last, left.Delivers host (.ok none) calls last →
        (left.above base).ContinuesAs host calls (last.backTo base) ∧
          (last.backTo base).Backtracks host := by
  refine ⟨yields.above, fun _ _ _ raised => raised.fails_above, fun calls last ended => ?_⟩
  exact ⟨ended.continuesAs (yields.progress_ne going) base, Enumerator.backtracks rfl⟩

theorem choices_framed_tail :
    let host : Host Tree String Unit :=
      ⟨fun _ datum => if datum == .int 9 then .error (.host "no") else .ok true, fun _ _ => .ok .wild⟩
    let tested : Pattern Tree String Unit := .and (.test ()) (.or (.capture "x") (.capture "y"))
    let e := (findWith (.int 1) tested {}).exploring (.seeded (.int 1) tested .empty)
      [.resume (.seeded (.int 3) (.capture "z") .empty)]
    let bound : Env Tree := ⟨[("k", .int 0)]⟩
    let marking : Pattern Tree String Unit := .and .mark (.capture "n")
    let nested := ((Enumerator.seeded (.int 2) (.or .wild marking) bound {}).drop []).backTo
      [.resume (.seeded (.int 2) marking bound)]
    let leg : Leg Tree String Unit :=
      ⟨[.ofPattern (.int 5) (.capture "w")], [.int 7], [.or .wild marking, .capture "q"], 0⟩
    let rest : List (Choice Tree String Unit) := [.resume (.seeded (.int 4) .wild .empty)]
    let base := .tail leg nested :: rest
    let solutions : List (Env Tree × List (Call Tree Unit)) :=
      [(⟨[("x", .int 1)]⟩, [.test () (.int 1)]), (⟨[("y", .int 1)]⟩, []), (⟨[("z", .int 3)]⟩, [])]
    let refused := findWith (.int 9) (.test ()) {}
    (∃ left last solved, e.Yields host solutions left ∧ left.Delivers host (.ok none) [] last ∧
      (e.above base).Yields host solutions (left.above base) ∧
      (left.above base).ContinuesAs host [] (last.backTo base) ∧
      (last.backTo base).ContinuesAs host []
        (last.exploring ⟨⟨[("k", .int 0), ("n", .int 2)]⟩, leg.next (.int 2) :: leg.work, [.int 7]⟩
          (.tail leg solved :: rest))) ∧
    ∃ last, refused.Delivers host (.error (.host "no")) [.test () (.int 9)] last ∧
      (refused.above base).Delivers host (.error (.host "no")) [.test () (.int 9)] (last.above base) := by
  intro host tested e bound marking nested leg rest base solutions refused
  have going : Progress.searching ≠ .exhausted := by decide
  constructor
  · have next : nested.Delivers host (.ok (some ⟨[("k", .int 0), ("n", .int 2)]⟩)) [] _ :=
      ⟨20, _, rfl, rfl, rfl, rfl⟩
    have framed {left last : Enumerator Tree String Unit} (yields : e.Yields host solutions left)
        (ended : left.Delivers host (.ok none) [] last) :
        (e.above base).Yields host solutions (left.above base) ∧
          (left.above base).ContinuesAs host [] (last.backTo base) ∧
          (last.backTo base).Backtracks host := by
      rcases choices_framed host going base yields with ⟨above, _, ends⟩
      exact ⟨above, ends [] last ended⟩
    have yields : e.Yields host solutions _ :=
      .cons ⟨20, _, rfl, rfl, rfl, rfl⟩ (.cons ⟨20, _, rfl, rfl, rfl, rfl⟩
        (.cons ⟨20, _, rfl, rfl, rfl, rfl⟩ (.nil _)))
    rcases framed yields ⟨20, _, rfl, rfl, rfl, rfl⟩ with ⟨above, continues, backtracks⟩
    exact ⟨_, _, _, yields, ⟨20, _, rfl, rfl, rfl, rfl⟩, above, continues,
      (backtracks.reopened rfl).marked next rfl⟩
  · have raised : refused.Delivers host (.error (.host "no")) [.test () (.int 9)] _ :=
      ⟨20, _, rfl, rfl, rfl, rfl⟩
    exact ⟨_, raised, (choices_framed host going base (.nil refused)).2.1 _ _ _ raised⟩

end TreeQuery
