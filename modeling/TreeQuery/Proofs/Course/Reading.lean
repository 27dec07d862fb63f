import TreeQuery.Enumerator.Advance
import TreeQuery.Proofs.Course.Order

/-! What is read off a course: its items with its ending, the answer to each request for a further
item, and the events that come before the answer. What can be read off a course stays the same
further up in the order. -/

namespace TreeQuery

/-- The answer to the request number `i`, counted from zero, when the items are asked for one after
the other: the item at this place, then the error if there is one, and nothing from then on. It is
unknown if the list was left open before. -/
def Results.answer? {α : Type} (results : Results α) (i : Nat) :
    Option (Except MatchError (Option α)) :=
  match results.items[i]?, results.ending with
  | some a, _ => some (.ok (some a))
  | none, .limit => none
  | none, .exhausted => some (.ok none)
  | none, .failed error => some (if i = results.items.length then .error error else .ok none)

def Results.map {α β : Type} (f : α → β) (results : Results α) : Results β :=
  ⟨results.items.map f, results.ending⟩

theorem Results.answer?_map {α β : Type} (f : α → β) (results : Results α) (i : Nat) :
    (results.map f).answer? i = (results.answer? i).map (Except.map (Option.map f)) := by
  rcases results with ⟨items, ending⟩
  simp only [Results.map, Results.answer?, List.getElem?_map, List.length_map]
  cases items[i]? with
  | some a => rfl
  | none =>
      cases ending with
      | exhausted => rfl
      | limit => rfl
      | failed error =>
          by_cases last : i = items.length
          · simp only [last, if_true, Option.map_none, Option.map_some]
            rfl
          · simp only [last, if_false, Option.map_none, Option.map_some]
            rfl

namespace Course

variable {E A : Type}

def results : Course E A → Results A
  | done => ⟨[], .exhausted⟩
  | failed error => ⟨[], .failed error⟩
  | pending => ⟨[], .limit⟩
  | event _ rest => rest.results
  | item a rest => { rest.results with items := a :: rest.results.items }

/-- The events up to the item number `count`, or up to the end if it comes before that. -/
def eventsUntil : Nat → Course E A → Option (List E)
  | 0, _ => some []
  | _ + 1, done => some []
  | _ + 1, failed _ => some []
  | _ + 1, pending => none
  | count + 1, event e rest => (eventsUntil (count + 1) rest).map (e :: ·)
  | count + 1, item _ rest => eventsUntil count rest

theorem answer?_done (i : Nat) : (done : Course E A).results.answer? i = some (.ok none) := by
  simp [results, Results.answer?]

theorem answer?_failed_zero (error : MatchError) :
    (failed error : Course E A).results.answer? 0 = some (.error error) := by
  simp [results, Results.answer?]

theorem answer?_failed_succ (error : MatchError) (i : Nat) :
    (failed error : Course E A).results.answer? (i + 1) = some (.ok none) := by
  simp [results, Results.answer?]

theorem answer?_pending (i : Nat) : (pending : Course E A).results.answer? i = none := by
  simp [results, Results.answer?]

theorem answer?_event (e : E) (rest : Course E A) (i : Nat) :
    (event e rest).results.answer? i = rest.results.answer? i := rfl

theorem answer?_item_zero (a : A) (rest : Course E A) :
    (item a rest).results.answer? 0 = some (.ok (some a)) := by
  simp [results, Results.answer?]

theorem answer?_item_succ (a : A) (rest : Course E A) (i : Nat) :
    (item a rest).results.answer? (i + 1) = rest.results.answer? i := by
  simp [results, Results.answer?]

theorem answer?_events (es : List E) (c : Course E A) (i : Nat) :
    (events es c).results.answer? i = c.results.answer? i := by
  induction es with
  | nil => rfl
  | cons e es ih => rw [events_cons, answer?_event, ih]

theorem eventsUntil_events (es : List E) (c : Course E A) (count : Nat) :
    eventsUntil (count + 1) (events es c) = (eventsUntil (count + 1) c).map (es ++ ·) := by
  induction es with
  | nil => simp [events_nil]
  | cons e es ih =>
      rw [events_cons, eventsUntil, ih, Option.map_map]
      rfl

theorem answer?_mono {c d : Course E A} (below : Below c d) {i : Nat}
    {answer : Except MatchError (Option A)} (known : c.results.answer? i = some answer) :
    d.results.answer? i = some answer := by
  induction below generalizing i with
  | pending => simp [answer?_pending] at known
  | done => exact known
  | failed error => exact known
  | event e rest ih => exact ih known
  | item a rest ih =>
      cases i with
      | zero => rwa [answer?_item_zero] at known ⊢
      | succ i =>
          rw [answer?_item_succ] at known ⊢
          exact ih known

theorem eventsUntil_mono {c d : Course E A} (below : Below c d) {count : Nat} {es : List E}
    (known : eventsUntil count c = some es) : eventsUntil count d = some es := by
  induction below generalizing count es with
  | pending =>
      cases count with
      | zero => simpa [eventsUntil] using known
      | succ count => simp [eventsUntil] at known
  | done => exact known
  | failed error => exact known
  | event e rest ih =>
      cases count with
      | zero => exact known
      | succ count =>
          simp only [eventsUntil, Option.map_eq_some_iff] at known ⊢
          obtain ⟨later, found, rfl⟩ := known
          exact ⟨later, ih found, rfl⟩
  | item a rest ih =>
      cases count with
      | zero => exact known
      | succ count => exact ih known

theorem eventsUntil_of_le {c : Course E A} {count fewer : Nat} (fewer_le : fewer ≤ count)
    {es : List E} (known : eventsUntil count c = some es) :
    ∃ first, eventsUntil fewer c = some first := by
  induction c generalizing count fewer es with
  | done => cases fewer <;> exact ⟨[], rfl⟩
  | failed error => cases fewer <;> exact ⟨[], rfl⟩
  | pending =>
      cases count with
      | zero =>
          have none : fewer = 0 := by omega
          exact ⟨[], by rw [none, eventsUntil]⟩
      | succ count => simp [eventsUntil] at known
  | event e rest ih =>
      cases fewer with
      | zero => exact ⟨[], rfl⟩
      | succ fewer =>
          cases count with
          | zero => omega
          | succ count =>
              simp only [eventsUntil, Option.map_eq_some_iff] at known ⊢
              rcases known with ⟨later, found, _⟩
              rcases ih fewer_le found with ⟨first, found⟩
              exact ⟨e :: first, first, found, rfl⟩
  | item a rest ih =>
      cases fewer with
      | zero => exact ⟨[], rfl⟩
      | succ fewer =>
          cases count with
          | zero => omega
          | succ count => exact ih (Nat.le_of_succ_le_succ fewer_le) known

theorem eventsUntil_of_append {c d : Course E A} {count : Nat} {es : List E}
    (known : eventsUntil count (c ++ d) = some es) : ∃ first, eventsUntil count c = some first := by
  induction c generalizing count es with
  | done => cases count <;> exact ⟨[], rfl⟩
  | failed error => cases count <;> exact ⟨[], rfl⟩
  | pending => exact ⟨es, known⟩
  | event e rest ih =>
      cases count with
      | zero => exact ⟨[], rfl⟩
      | succ count =>
          rw [event_append, eventsUntil, Option.map_eq_some_iff] at known
          rcases known with ⟨later, found, _⟩
          rcases ih found with ⟨first, shown⟩
          exact ⟨e :: first, congrArg (Option.map _) shown⟩
  | item a rest ih =>
      cases count with
      | zero => exact ⟨[], rfl⟩
      | succ count =>
          rw [item_append, eventsUntil] at known
          exact ih known

theorem answer?_of_eventsUntil {c : Course E A} {count i : Nat} {es : List E}
    (known : eventsUntil count c = some es) (asked : i < count) :
    ∃ answer, c.results.answer? i = some answer := by
  induction c generalizing count i es with
  | done => exact ⟨_, answer?_done i⟩
  | failed error =>
      cases i with
      | zero => exact ⟨_, answer?_failed_zero error⟩
      | succ i => exact ⟨_, answer?_failed_succ error i⟩
  | pending =>
      cases count with
      | zero => cases asked
      | succ count => simp [eventsUntil] at known
  | event e rest ih =>
      cases count with
      | zero => cases asked
      | succ count =>
          simp only [eventsUntil, Option.map_eq_some_iff] at known
          rcases known with ⟨later, found, _⟩
          exact ih found asked
  | item a rest ih =>
      cases count with
      | zero => cases asked
      | succ count =>
          cases i with
          | zero => exact ⟨_, answer?_item_zero a rest⟩
          | succ i =>
              rcases ih known (Nat.lt_of_succ_lt_succ asked) with ⟨answer, found⟩
              exact ⟨answer, (answer?_item_succ a rest i).trans found⟩

theorem eventsUntil_of_answer? {c : Course E A} {i : Nat} {answer : Except MatchError (Option A)}
    (known : c.results.answer? i = some answer) : ∃ es, eventsUntil (i + 1) c = some es := by
  induction c generalizing i with
  | done => exact ⟨[], rfl⟩
  | failed error => exact ⟨[], rfl⟩
  | pending => simp [answer?_pending] at known
  | event e rest ih =>
      obtain ⟨es, found⟩ := ih known
      exact ⟨e :: es, by simp [eventsUntil, found]⟩
  | item a rest ih =>
      cases i with
      | zero => exact ⟨[], by simp [eventsUntil]⟩
      | succ i => exact ih (answer?_item_succ a rest i ▸ known)

end Course

end TreeQuery
