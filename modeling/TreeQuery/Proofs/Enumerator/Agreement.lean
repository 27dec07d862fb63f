import Mathlib.Data.List.Forall2
import TreeQuery.Proofs.Course.Related
import TreeQuery.Proofs.Enumerator.Adequacy

/-! Comparing two enumerations request by request. They agree if their courses do. -/

namespace TreeQuery.Enumerator

open Course (Alike Below SameAnswer)

variable {D K H : Type} [TreeLike D K] [BEq D] [BEq K]

/-- Two enumerations return for the same number of requests. Their answers are the same up to the
relation on solutions, and they make the same visible calls. -/
structure Agree (host : Host D K H) (visible : Call D H → Bool) (R : Branch D → Branch D → Prop)
    (e e' : Enumerator D K H) : Prop where
  returns (count : Nat) :
    (∃ fuel replies, e.advances host fuel count = some replies) ↔
      ∃ fuel replies, e'.advances host fuel count = some replies
  replies (count fuel fuel' : Nat)
    (replies replies' : List (Reply D K H (Except MatchError (Option (Env D)))))
    (returned : e.advances host fuel count = some replies)
    (returned' : e'.advances host fuel' count = some replies') :
    (replies.flatMap Reply.calls).filter visible = (replies'.flatMap Reply.calls).filter visible ∧
      List.Forall₂ (fun reply reply' => SameAnswer R reply.solved reply'.solved) replies replies'

variable {host : Host D K H} {visible : Call D H → Bool} {R S : Branch D → Branch D → Prop}
  {e e' : Enumerator D K H}

/-- As far as the first course is known, the second one goes the same way at some depth. Only
visible calls count, and the items are related. -/
def Leads (host : Host D K H) (visible : Call D H → Bool) (R : Branch D → Branch D → Prop)
    (e e' : Enumerator D K H) : Prop :=
  ∀ depth, ∃ depth' c, Alike R ((e.course host depth).filter visible) c ∧
    Below c ((e'.course host depth').filter visible)

theorem Leads.known (leads : Leads host visible R e e')
    {replies : List (Reply D K H (Except MatchError (Option (Env D))))}
    (answers : Answers host e replies) :
    ∃ depth calls, Course.eventsUntil replies.length (e'.course host depth) = some calls ∧
      (replies.flatMap Reply.calls).filter visible = calls.filter visible ∧
      ∀ i < replies.length, ∃ answer other, (replies.map Reply.solved)[i]? = some answer ∧
        (e'.course host depth).results.answer? i = some other ∧ SameAnswer R answer other := by
  rcases answers.given with ⟨depth, gives⟩
  rcases leads depth with ⟨depth', c, alike, below⟩
  have seen : c.eventsUntil replies.length = some ((replies.flatMap Reply.calls).filter visible) := by
    rw [← alike.eventsUntil, Course.eventsUntil_filter, gives.1, Option.map_some]
  have shown := Course.eventsUntil_mono below seen
  rw [Course.eventsUntil_filter, Option.map_eq_some_iff] at shown
  rcases shown with ⟨calls, known, same⟩
  refine ⟨depth', calls, known, same.symm, fun i asked => ?_⟩
  rcases Course.answer?_of_eventsUntil gives.1 asked with ⟨answer, found⟩
  rcases alike.answer? ((Course.results_filter visible _).symm ▸ found) with ⟨other, found', same⟩
  have shown := Course.answer?_mono below found'
  rw [Course.results_filter] at shown
  exact ⟨answer, other, (gives.2 i asked).symm.trans found, shown, same⟩

theorem Leads.returns (leads : Leads host visible R e e') {count : Nat}
    (returned : ∃ fuel replies, e.advances host fuel count = some replies) :
    ∃ fuel replies, e'.advances host fuel count = some replies := by
  rcases returned with ⟨fuel, replies, returned⟩
  rcases answers_of_advances returned with ⟨answers, rfl⟩
  rcases leads.known answers with ⟨depth, calls, known, _⟩
  rcases answers_of_course known with ⟨replies', answers', length, _⟩
  rcases advances_of_answers answers' with ⟨enough, returns⟩
  exact ⟨enough, replies', length ▸ returns enough (Nat.le_refl enough)⟩

theorem agree_of_leads (leads : Leads host visible R e e') (back : Leads host visible S e' e) :
    Agree host visible R e e' where
  returns _ := ⟨leads.returns, back.returns⟩
  replies count fuel fuel' replies replies' returned returned' := by
    rcases answers_of_advances returned with ⟨answers, rfl⟩
    rcases answers_of_advances returned' with ⟨answers', length⟩
    rcases leads.known answers with ⟨depth, calls, known, same, each⟩
    have gives : (e'.course host depth).Gives replies' := answers'.gives (length.symm ▸ known)
    constructor
    · have own := gives.1
      rw [length, known] at own
      rw [same, Option.some.inj own]
    · refine List.forall₂_iff_get.mpr ⟨length.symm, fun i bound bound' => ?_⟩
      rcases each i bound with ⟨answer, other, own, found, alike⟩
      have own' := gives.2 i bound'
      rw [found, List.getElem?_map, List.getElem?_eq_getElem bound', Option.map_some] at own'
      rw [List.getElem?_map, List.getElem?_eq_getElem bound, Option.map_some] at own
      rw [← Option.some.inj own, Option.some.inj own'] at alike
      exact alike

theorem agree_of_filter
    (same : ∀ depth, (e.course host depth).filter visible = (e'.course host depth).filter visible) :
    Agree host visible (fun branch branch' => branch = branch') e e' := by
  have leads {e e' : Enumerator D K H} (same : ∀ depth,
      (e.course host depth).filter visible = (e'.course host depth).filter visible) :
      Leads host visible (fun branch branch' => branch = branch') e e' :=
    fun depth => ⟨depth, _, .refl (fun _ => rfl) _, .of_eq (same depth)⟩
  exact agree_of_leads (leads same) (leads fun depth => (same depth).symm)

theorem agree_of_alike (alike : ∀ depth, Alike R (e.course host depth) (e'.course host depth)) :
    Agree host (fun _ => true) R e e' := by
  have leads {S : Branch D → Branch D → Prop} {e e' : Enumerator D K H}
      (alike : ∀ depth, Alike S (e.course host depth) (e'.course host depth)) :
      Leads host (fun _ => true) S e e' := by
    intro depth
    refine ⟨depth, _, ?_, .refl _⟩
    rw [Course.filter_all, Course.filter_all]
    exact alike depth
  exact agree_of_leads (leads alike) (leads fun depth => (alike depth).flip)

end TreeQuery.Enumerator
