import TreeQuery.Proofs.Enumerator.Adequacy
import TreeQuery.Proofs.Enumerator.Reset
import TreeQuery.Proofs.Pattern.Founded
import TreeQuery.Tree

/-! An enumeration of a pattern that cannot generate patterns for ever answers every request, and it
comes to an end. -/

namespace TreeQuery

variable {D K H : Type} [TreeLike D K] [BEq D] [BEq K] {host : Host D K H}

namespace Enumerator

def Returns (host : Host D K H) (e : Enumerator D K H) : Prop :=
  ∀ count, ∃ replies, Answers host e replies ∧ replies.length = count

theorem Returns.halts {e : Enumerator D K H} (returns : e.Returns host) :
    ∃ reply, Machine.Halts host (.ask e []) reply := by
  rcases returns 1 with ⟨replies, answers, length⟩
  cases answers with
  | nil => cases length
  | cons now rest => exact ⟨_, now⟩

theorem Returns.next {e : Enumerator D K H} (returns : e.Returns host)
    {reply : Reply D K H (Except MatchError Bool)} (halts : Machine.Halts host (.ask e []) reply) :
    reply.enumerator.Returns host := by
  intro count
  rcases returns (count + 1) with ⟨replies, answers, length⟩
  cases answers with
  | nil => cases length
  | cons now rest =>
      cases halts.unique now
      exact ⟨_, rest, Nat.succ.inj length⟩

/-- Every request is answered, whatever has been asked before, and one of the requests for a
solution finds the end of the enumeration or an error. -/
def Terminates (host : Host D K H) (e : Enumerator D K H) : Prop :=
  (∀ requests, ∃ enough, ∀ fuel, enough ≤ fuel →
      ∃ replies, e.serveAll host fuel requests = some replies) ∧
    ∃ count enough, ∀ fuel, enough ≤ fuel →
      ∃ replies, e.advances host fuel count = some replies ∧ ∃ reply ∈ replies, Final reply

theorem serveAll_cons {fuel : Nat} {e : Enumerator D K H} {request : Request}
    {requests : List Request} {reply : Reply D K H (Answer D)} {later : List (Reply D K H (Answer D))}
    (now : e.serve host fuel request = some reply)
    (others : reply.enumerator.serveAll host fuel requests = some later) :
    e.serveAll host fuel (request :: requests) = some (reply :: later) := by
  rw [serveAll, now, Option.bind_eq_bind, Option.bind_some, others]
  rfl

theorem serveAll_returns {e : Enumerator D K H} (returns : e.Returns host)
    (again : e.reset.Returns host) (requests : List Request) :
    ∃ enough, ∀ fuel, enough ≤ fuel → ∃ replies, e.serveAll host fuel requests = some replies := by
  induction requests generalizing e with
  | nil => exact ⟨0, fun _ _ => ⟨[], rfl⟩⟩
  | cons request requests ih =>
      by_cases reset : request = .reset
      · cases reset
        rcases ih (e := e.reset) again again with ⟨enough, serves⟩
        refine ⟨enough, fun fuel more => ?_⟩
        rcases serves fuel more with ⟨later, others⟩
        have now : e.serve host fuel .reset = some ⟨.rewound, [], e.reset⟩ := rfl
        exact ⟨_, serveAll_cons now others⟩
      · rcases returns.halts with ⟨reply, halts⟩
        have begins : reply.enumerator.reset = e.reset := halts.reset_eq
        rcases advance_of_halts halts with ⟨enough, advances⟩
        rcases ih (returns.next halts) (begins ▸ again) with ⟨enough', serves⟩
        refine ⟨max enough enough', fun fuel more => ?_⟩
        have now : e.serve host fuel request = _ := serve_eq reset fuel e
        rw [advances fuel (Nat.le_trans (Nat.le_max_left _ _) more), Option.map_some] at now
        rcases serves fuel (Nat.le_trans (Nat.le_max_right _ _) more) with ⟨later, others⟩
        exact ⟨_, serveAll_cons now others⟩

theorem terminates_of_closed {e : Enumerator D K H} {depth depth' : Nat}
    (closed : (e.course host depth).Closed) (again : (e.reset.course host depth').Closed) :
    e.Terminates host := by
  have returns {e : Enumerator D K H} {depth : Nat} (closed : (e.course host depth).Closed) :
      e.Returns host := by
    intro count
    rcases closed.eventsUntil count with ⟨calls, known⟩
    exact answers_of_known known
  constructor
  · exact serveAll_returns (returns closed) (returns again)
  · -- The items of the course run out at request `i`, so that reply is no solution.
    rcases closed.ends with ⟨i, answer, known, final⟩
    rcases closed.eventsUntil (i + 1) with ⟨calls, shown⟩
    rcases answers_of_course shown with ⟨replies, answers, length, gives⟩
    rcases advances_of_answers answers with ⟨enough, advances⟩
    have bound : i < replies.length := by omega
    have last : replies[i].solved = answer := by
      have same := gives.2 i bound
      rw [known, List.getElem?_map, List.getElem?_eq_getElem bound] at same
      exact (Option.some.inj same).symm
    refine ⟨i + 1, enough, fun fuel more => ⟨replies, length ▸ advances fuel more, ?_⟩⟩
    refine ⟨replies[i], List.getElem_mem bound, fun env solution => ?_⟩
    rw [Reply.solved, solution] at last
    exact final _ last.symm

end Enumerator

theorem Pattern.Founded.terminates {pattern : Pattern D K H} (founded : pattern.Founded host)
    (datum : D) (config : MatchConfig) : (findWith datum pattern config).Terminates host := by
  rcases founded.bounded datum ⟨.empty, []⟩ with ⟨depth, closed⟩
  have own : ((findWith datum pattern config).course host depth).Closed := by
    rw [course_findWith]
    exact closed
  exact Enumerator.terminates_of_closed own own

/-- An enumeration answers every request, whatever has been asked before, and comes to its end or to
an error, if there is a rank that falls from each pattern that occurs to its subpatterns and to
those that the host generates for it. A pattern that generates none needs no rank. -/
theorem findWith_terminates (host : Host D K H) (datum : D) (pattern : Pattern D K H)
    (config : MatchConfig) :
    (∀ {R : Type*} [LT R] [WellFoundedLT R] (rank : Pattern D K H → R),
      (∀ p q, p.Descends host pattern → Pattern.Stems host q p → rank q < rank p) →
      (findWith datum pattern config).Terminates host) ∧
    (pattern.Plain → (findWith datum pattern config).Terminates host) := by
  constructor
  · intro R _ _ rank falls
    exact (Pattern.founded_of_rank rank falls).terminates datum config
  · intro plain
    exact (plain.founded host).terminates datum config

def stayingPath : Pattern Tree String Unit := .path [.mark, .generate (), .mark]

def markingHost : Host Tree String Unit := ⟨fun _ _ => .ok true, fun _ _ => .ok .mark⟩

theorem descends_stayingPath {p : Pattern Tree String Unit}
    (descends : p.Descends markingHost stayingPath) :
    p = stayingPath ∨ p = .generate () ∨ p = .mark := by
  induction descends using Relation.ReflTransGen.head_induction_on with
  | refl => exact .inl rfl
  | head stems _ ih =>
      rcases ih with rfl | rfl | rfl
      · cases stems with
        | child member =>
            simp only [stayingPath, Pattern.children, List.mem_cons, List.not_mem_nil] at member
            tauto
      · cases stems with
        | child member => cases member
        | generated made =>
            cases made
            exact .inr (.inr rfl)
      · cases stems with
        | child member => cases member

theorem findWith_terminates_stayingPath :
    (findWith (.int 1) stayingPath {}).Terminates markingHost ∧
      (findWith (.int 1) (.path [.mark, .mark] : Pattern Tree String Unit) {}).Terminates
        markingHost := by
  constructor
  · let rank : Pattern Tree String Unit → Nat
      | .path _ => 2
      | .generate _ => 1
      | _ => 0
    apply (findWith_terminates markingHost (.int 1) stayingPath {}).1 rank
    intro p q descends stems
    rcases descends_stayingPath descends with rfl | rfl | rfl
    · rcases descends_stayingPath (.single stems) with rfl | rfl | rfl
      · cases stems with
        | child member => simp [stayingPath, Pattern.children] at member
      · decide
      · decide
    · cases stems with
      | child member => cases member
      | generated made =>
          cases made
          decide
    · cases stems with
      | child member => cases member
  · apply (findWith_terminates.{0} markingHost (.int 1) (.path [.mark, .mark]) {}).2
    intro handle present
    simp [TreeLike.nodes_eq, TreeLike.children, Pattern.children] at present

end TreeQuery
