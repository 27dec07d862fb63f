import TreeQuery.Proofs.Enumerator.Sound

/-! An enumeration between requests. With a solution it has nothing left to do on its branch, and at its
end it has no choice points. -/

namespace TreeQuery

variable {D K H : Type}

namespace Enumerator

/-- What the answers since the last reset say about an enumeration between requests. -/
structure Settled (answers : List (Except MatchError (Option (Env D)))) (e : Enumerator D K H) :
    Prop where
  yielded : e.progress = .yielded → e.frame.work = []
  exhausted : e.progress = .exhausted → e.choices = [] ∨ ∃ error, .error error ∈ answers
  ended : .ok none ∈ answers → e.progress = .exhausted

theorem settled_seeded (root : D) (pattern : Pattern D K H) (seed : Env D) (config : MatchConfig) :
    Settled [] (seeded root pattern seed config) :=
  ⟨nofun, nofun, fun member => absurd member List.not_mem_nil⟩

variable [TreeLike D K] [BEq D] [BEq K] {host : Host D K H} {config : MatchConfig}

/-- The enumeration, `fresh` at first, between requests, with its answers since it was new or was last
reset. -/
inductive Rests (host : Host D K H) (fresh : Enumerator D K H) :
    List (Except MatchError (Option (Env D))) → Enumerator D K H → Prop where
  | fresh : Rests host fresh [] fresh
  | advance {answers : List (Except MatchError (Option (Env D)))} {e : Enumerator D K H} {fuel : Nat}
      {reply : Reply D K H (Except MatchError (Option (Env D)))} (earlier : Rests host fresh answers e)
      (returned : e.advance host fuel = some reply) :
      Rests host fresh (answers ++ [reply.answer]) reply.enumerator
  | reset {answers : List (Except MatchError (Option (Env D)))} {e : Enumerator D K H}
      (earlier : Rests host fresh answers e) : Rests host fresh [] e.reset

theorem reachable_of_halts {fresh : Enumerator D K H} {m : Machine D K H}
    {reply : Reply D K H (Except MatchError Bool)} (halts : Machine.Halts host m reply)
    (reachable : Machine.Reachable host fresh m) :
    Machine.Reachable host fresh (.ask reply.enumerator []) := by
  induction halts with
  | halt now => exact .again reachable now
  | next now later ih => exact ih (.next reachable now)

theorem Rests.reachable {fresh e : Enumerator D K H}
    {answers : List (Except MatchError (Option (Env D)))} (rests : Rests host fresh answers e) :
    Machine.Reachable host fresh (.ask e []) := by
  induction rests with
  | fresh => exact .start
  | advance earlier returned ih =>
      rcases halts_of_advance returned with ⟨own, halts, rfl⟩
      exact reachable_of_halts halts ih
  | reset earlier ih => exact .reset ih

theorem Answers.rests {fresh e : Enumerator D K H}
    {replies : List (Reply D K H (Except MatchError (Option (Env D))))} (given : Answers host e replies)
    {answers : List (Except MatchError (Option (Env D)))} (rests : Rests host fresh answers e) :
    Rests host fresh (answers ++ replies.map Reply.answer) (e.leftBy replies) := by
  induction given generalizing answers with
  | nil e =>
      rw [List.map_nil, List.append_nil]
      exact rests
  | cons now later ih =>
      rcases advance_of_halts now with ⟨enough, returns⟩
      have next := ih (.advance rests (returns enough (Nat.le_refl enough)))
      rw [List.append_assoc] at next
      exact next

theorem Settled.advance {answers : List (Except MatchError (Option (Env D)))} {e : Enumerator D K H}
    {own : Reply D K H (Except MatchError Bool)} (settled : Settled answers e)
    (sound : e.Sound config) (halts : Machine.Halts host (.ask e []) own) :
    Settled (answers ++ [own.withBindings.answer]) own.enumerator := by
  by_cases spent : e.progress = .exhausted
  · have same := halts.of_exhausted spent
    subst same
    exact ⟨settled.yielded, fun _ => (settled.exhausted spent).imp id fun ⟨error, member⟩ =>
      ⟨error, List.mem_append_left _ member⟩, fun _ => spent⟩
  · have going : (Machine.ask e []).phase ≠ .spent := by
      revert spent
      rw [Machine.ask]
      cases e.progress <;> simp [Phase.ofProgress]
    rcases halts.progress with ⟨solution, yielded⟩ | ⟨unsolved, exhausted⟩
    · refine ⟨fun _ => halts.ready solution, fun exhausted => ?_, fun member => ?_⟩
      · rw [yielded] at exhausted
        cases exhausted
      · rcases List.mem_append.mp member with old | new
        · exact absurd (settled.ended old) spent
        · have answer := List.mem_singleton.mp new
          rw [Reply.withBindings_of_true solution] at answer
          cases answer
    · refine ⟨fun yielded => ?_, fun _ => ?_, fun _ => exhausted⟩
      · rw [exhausted] at yielded
        cases yielded
      · cases answer : own.answer with
        | ok found =>
            cases found with
            | true => exact absurd answer unsolved
            | false => exact .inl (halts.bottom (Machine.sound_ask sound) going answer)
        | error error =>
            have raised := Reply.withBindings_eq_error.mpr answer
            exact .inr ⟨error, List.mem_append_right _ (List.mem_singleton.mpr raised.symm)⟩

theorem Rests.settled {fresh e : Enumerator D K H}
    {answers : List (Except MatchError (Option (Env D)))} (rests : Rests host fresh answers e)
    (sound : fresh.Sound config) (settled : Settled [] fresh) : Settled answers e := by
  induction rests with
  | fresh => exact settled
  | advance earlier returned ih =>
      rcases halts_of_advance returned with ⟨own, halts, rfl⟩
      exact ih.advance (earlier.reachable.sound sound).active halts
  | @reset answers e earlier ih => exact settled_seeded e.root e.pattern e.seed e.config

end Enumerator

/-- In every state of a search, in all of its enumerations, each path in a live, saved or suspended
branch is at a step that it has, the enumeration of a step is kept only with a solution and nothing
left to do on its branch, and the options are the same. An error of the search itself for a path gives
the number of steps that remain. Between requests an enumeration with a solution has no work left, and
one that has come to its end without an error has no choice points. The windows on the children of a
datum are slices of them. -/
theorem sound_of_reachable [TreeLike D K] [BEq D] [BEq K] (host : Host D K H) (root : D)
    (pattern : Pattern D K H) (config : MatchConfig) :
    (∀ m, Machine.Reachable host (.new root pattern config) m →
      m.Sound config ∧
        ∀ events error e, m.step host = (events, .halt (.error error) e) → Event.calls events = [] →
          (∃ name, error = .unboundTemplate name) ∨
            ∃ w waiting remaining, m.waiting = w :: waiting ∧
              error = .danglingPath w.leg.step remaining ∧
              w.leg.step + 1 + remaining = w.leg.steps.length ∧ 1 ≤ remaining) ∧
    (∀ answers e, Enumerator.Rests host (.new root pattern config) answers e →
      Machine.Reachable host (.new root pattern config) (.ask e []) ∧
        (e.progress = .yielded → e.frame.work = []) ∧
        (.ok none ∈ answers → (∀ error, .error error ∉ answers) → e.choices = [])) ∧
    ∀ (datum : D) (items : List (Pattern D K H)),
      ∀ run ∈ windows items.length (TreeLike.children datum),
        ∃ start, start + items.length ≤ (TreeLike.children datum).length ∧
          run = ((TreeLike.children datum).drop start).take items.length := by
  have fresh : (Enumerator.new root pattern config).Sound config :=
    Enumerator.sound_seeded root pattern .empty config
  refine ⟨fun m reachable => ⟨reachable.sound fresh, ?_⟩, fun answers e rests => ?_, ?_⟩
  · intro events error e now silent
    exact (Machine.step_of_eq now).error_of_silent silent
  · have settled := rests.settled fresh (Enumerator.settled_seeded root pattern .empty config)
    refine ⟨rests.reachable, settled.yielded, fun ended sound => ?_⟩
    rcases settled.exhausted (settled.ended ended) with bottom | ⟨error, member⟩
    · exact bottom
    · exact absurd member (sound error)
  · intro datum items run member
    exact exists_of_mem_windows member

theorem sound_of_reachable_children :
    let host : Host Tree String Unit := ⟨fun _ _ => .ok true, fun _ _ => .ok .wild⟩
    let root : Tree := .list [.int 1, .int 2]
    let marking : Pattern Tree String Unit := .path [.window [.mark], .capture "x"]
    let dangling : Pattern Tree String Unit := .path [.wild, .wild]
    let strict : MatchConfig := ⟨false, true, {}⟩
    (∃ m leg nested, Machine.Reachable host (.new root marking strict) m ∧
      m.active.choices = [.tail leg nested] ∧ m.Sound strict) ∧
    (∃ m events error e, Machine.Reachable host (.new root dangling strict) m ∧
      m.step host = (events, .halt (.error error) e) ∧ Event.calls events = [] ∧
      ∃ remaining, error = .danglingPath 0 remaining ∧ 0 + 1 + remaining = 2 ∧ 1 ≤ remaining) ∧
    (∃ answers e, Enumerator.Rests host (.new root marking strict) answers e ∧
      .ok none ∈ answers ∧ e.choices = []) ∧
    ∃ start, start + 1 ≤ (TreeLike.children root).length ∧
      [.int 2] = ((TreeLike.children root).drop start).take 1 := by
  intro host root marking dangling strict
  have law (pattern : Pattern Tree String Unit) := sound_of_reachable host root pattern strict
  refine ⟨?_, ?_, ?_, ?_⟩
  · have reachable : Machine.Reachable host (.new root marking strict) _ :=
      .next (.next (.next (.next .start rfl) rfl) rfl) rfl
    exact ⟨_, _, _, reachable, rfl, ((law marking).1 _ reachable).1⟩
  · have reachable : Machine.Reachable host (.new root dangling strict) _ :=
      .next (.next .start rfl) rfl
    rcases ((law dangling).1 _ reachable).2 _ _ _ rfl rfl with
      ⟨_, unbound⟩ | ⟨w, waiting, remaining, front, error, count, more⟩
    · cases unbound
    · cases front
      exact ⟨_, _, _, _, reachable, rfl, rfl, remaining, error, count, more⟩
  · have evaluated : ((Enumerator.new root marking strict).advances host 20 3).map
        (List.map Reply.solves?) = some [some true, some true, some false] := by decide
    rcases Option.map_eq_some_iff.mp evaluated with ⟨replies, returned, shown⟩
    have rests := (Enumerator.answers_of_advances returned).1.rests .fresh
    rw [List.nil_append] at rests
    rcases Reply.exists_ended shown (by decide) with ⟨reply, member, last⟩
    have ended : .ok none ∈ replies.map Reply.answer := List.mem_map.mpr ⟨reply, member, last⟩
    have sound : ∀ error, .error error ∉ replies.map Reply.answer := by
      intro error raised
      rcases List.mem_map.mp raised with ⟨reply, present, failed⟩
      exact Reply.forall_ne_error shown (by decide) reply present error failed
    exact ⟨_, _, rests, ended, ((law marking).2.1 _ _ rests).2.2 ended sound⟩
  · have member : [.int 2] ∈ windows 1 (TreeLike.children root) :=
      List.mem_map.mpr ⟨1, by decide, rfl⟩
    exact (law marking).2.2 root [.mark] [.int 2] member

end TreeQuery
