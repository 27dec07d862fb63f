import TreeQuery.Proofs.Course.Reading

/-! Comparing two courses whose items differ, or some of whose events are out of sight. -/

namespace TreeQuery.Course

variable {E A B A' B' : Type} {R : A → B → Prop}

/-- Both courses go the same way, and their items are related. -/
inductive Alike (R : A → B → Prop) : Course E A → Course E B → Prop where
  | done : Alike R done done
  | failed (error : MatchError) : Alike R (failed error) (failed error)
  | pending : Alike R pending pending
  | event (e : E) {c : Course E A} {d : Course E B} (rest : Alike R c d) :
      Alike R (event e c) (event e d)
  | item {a : A} {b : B} (related : R a b) {c : Course E A} {d : Course E B} (rest : Alike R c d) :
      Alike R (item a c) (item b d)

namespace Alike

theorem refl {R : A → A → Prop} (same : ∀ a, R a a) (c : Course E A) : Alike R c c := by
  induction c with
  | done => exact .done
  | failed error => exact .failed error
  | pending => exact .pending
  | event e rest ih => exact .event e ih
  | item a rest ih => exact .item (same a) ih

theorem flip {c : Course E A} {d : Course E B} (alike : Alike R c d) :
    Alike (fun b a => R a b) d c := by
  induction alike with
  | done => exact .done
  | failed error => exact .failed error
  | pending => exact .pending
  | event e rest ih => exact .event e ih
  | item related rest ih => exact .item (R := fun b a => R a b) related ih

theorem pure {a : A} {b : B} (related : R a b) :
    Alike R (Course.pure a : Course E A) (Course.pure b) :=
  .item related .done

theorem append {c c' : Course E A} {d d' : Course E B} (first : Alike R c d)
    (second : Alike R c' d') : Alike R (c ++ c') (d ++ d') := by
  induction first with
  | done => exact second
  | failed error => exact .failed error
  | pending => exact .pending
  | event e rest ih => exact .event e ih
  | item related rest ih => exact .item related ih

theorem bind {S : A' → B' → Prop} {c : Course E A} {d : Course E B} {next : A → Course E A'}
    {next' : B → Course E B'} (first : Alike R c d)
    (later : ∀ a b, R a b → Alike S (next a) (next' b)) : Alike S (c.bind next) (d.bind next') := by
  induction first with
  | done => exact .done
  | failed error => exact .failed error
  | pending => exact .pending
  | event e rest ih => exact .event e ih
  | item related rest ih => exact (later _ _ related).append ih

theorem bind_eq {C : Type} {c : Course E A} {d : Course E B} {next : A → Course E C}
    {next' : B → Course E C} (alike : Alike R c d) (each : ∀ a b, R a b → next a = next' b) :
    c.bind next = d.bind next' := by
  induction alike with
  | done | failed error | pending => rfl
  | event e rest ih => rw [Course.bind, Course.bind, ih]
  | item related rest ih => rw [Course.bind, Course.bind, ih, each _ _ related]

theorem concat {α : Type} (items : List α) {f : α → Course E A} {f' : α → Course E B}
    (each : ∀ a, Alike R (f a) (f' a)) :
    Alike R (Course.concat (items.map f)) (Course.concat (items.map f')) := by
  induction items with
  | nil => exact .done
  | cons a items ih => exact (each a).append ih

theorem eventsUntil {c : Course E A} {d : Course E B} (alike : Alike R c d) (count : Nat) :
    c.eventsUntil count = d.eventsUntil count := by
  induction alike generalizing count with
  | done | failed | pending => cases count <;> rfl
  | event e rest ih =>
      cases count with
      | zero => rfl
      | succ count => rw [Course.eventsUntil, Course.eventsUntil, ih]
  | item related rest ih =>
      cases count with
      | zero => rfl
      | succ count => exact ih count

end Alike

inductive SameAnswer (R : A → B → Prop) :
    Except MatchError (Option A) → Except MatchError (Option B) → Prop where
  | item {a : A} {b : B} (related : R a b) : SameAnswer R (.ok (some a)) (.ok (some b))
  | nothing : SameAnswer R (.ok none) (.ok none)
  | error (error : MatchError) : SameAnswer R (.error error) (.error error)

theorem Alike.answer? {c : Course E A} {d : Course E B} (alike : Alike R c d) {i : Nat}
    {answer : Except MatchError (Option A)} (known : c.results.answer? i = some answer) :
    ∃ other, d.results.answer? i = some other ∧ SameAnswer R answer other := by
  induction alike generalizing i with
  | pending => simp [answer?_pending] at known
  | done =>
      rw [answer?_done] at known ⊢
      cases known
      exact ⟨_, rfl, .nothing⟩
  | failed error =>
      cases i with
      | zero =>
          rw [answer?_failed_zero] at known ⊢
          cases known
          exact ⟨_, rfl, .error error⟩
      | succ i =>
          rw [answer?_failed_succ] at known ⊢
          cases known
          exact ⟨_, rfl, .nothing⟩
  | event e rest ih => exact ih known
  | item related rest ih =>
      cases i with
      | zero =>
          rw [answer?_item_zero] at known ⊢
          cases known
          exact ⟨_, rfl, .item related⟩
      | succ i =>
          rw [answer?_item_succ] at known ⊢
          exact ih known

def filter (visible : E → Bool) : Course E A → Course E A
  | done => done
  | failed error => failed error
  | pending => pending
  | event e rest => if visible e then event e (rest.filter visible) else rest.filter visible
  | item a rest => item a (rest.filter visible)

section Filter

variable (visible : E → Bool)

theorem filter_append (c d : Course E A) :
    (c ++ d).filter visible = c.filter visible ++ d.filter visible := by
  induction c with
  | done | failed | pending => rfl
  | event e rest ih =>
      rw [event_append, filter, filter, ih]
      cases visible e <;> rfl
  | item a rest ih => rw [item_append, filter, filter, ih, item_append]

theorem filter_bind (c : Course E A) (next : A → Course E B) :
    (c.bind next).filter visible = (c.filter visible).bind fun a => (next a).filter visible := by
  induction c with
  | done | failed | pending => rfl
  | event e rest ih =>
      rw [bind, filter, filter, ih]
      cases visible e <;> rfl
  | item a rest ih => rw [bind, filter, filter_append, ih, bind]

theorem filter_concat {α : Type} (items : List α) (f : α → Course E A) :
    (concat (items.map f)).filter visible = concat (items.map fun a => (f a).filter visible) := by
  induction items with
  | nil => rfl
  | cons a items ih => rw [List.map_cons, List.map_cons, concat, concat, filter_append, ih]

theorem filter_all (c : Course E A) : c.filter (fun _ => true) = c := by
  induction c with
  | done | failed | pending => rfl
  | event e rest ih => rw [filter, if_pos rfl, ih]
  | item a rest ih => rw [filter, ih]

theorem results_filter (c : Course E A) : (c.filter visible).results = c.results := by
  induction c with
  | done | failed | pending => rfl
  | event e rest ih =>
      rw [filter, results]
      split
      · exact ih
      · exact ih
  | item a rest ih => rw [filter, results, results, ih]

theorem eventsUntil_filter (c : Course E A) (count : Nat) :
    (c.filter visible).eventsUntil count = (c.eventsUntil count).map (List.filter visible) := by
  induction c generalizing count with
  | done | failed => cases count <;> rfl
  | pending => cases count <;> rfl
  | event e rest ih =>
      cases count with
      | zero => simp only [eventsUntil, Option.map_some, List.filter_nil]
      | succ count =>
          rw [filter, eventsUntil, Option.map_map]
          cases seen : visible e with
          | true =>
              rw [if_pos rfl, eventsUntil, ih, Option.map_map]
              exact congrArg (Option.map · _) (funext fun es => (List.filter_cons_of_pos seen).symm)
          | false =>
              rw [if_neg Bool.false_ne_true, ih]
              refine congrArg (Option.map · _) (funext fun es => (List.filter_cons_of_neg ?_).symm)
              rw [seen]
              exact Bool.false_ne_true
  | item a rest ih =>
      cases count with
      | zero => simp only [eventsUntil, Option.map_some, List.filter_nil]
      | succ count => exact ih count

theorem Below.filter {c d : Course E A} (below : Below c d) :
    Below (c.filter visible) (d.filter visible) := by
  induction below with
  | pending => exact .pending _
  | done => exact .done
  | failed error => exact .failed error
  | event e rest ih =>
      simp only [Course.filter]
      split
      · exact .event e ih
      · exact ih
  | item a rest ih => exact .item a ih

end Filter

end TreeQuery.Course
