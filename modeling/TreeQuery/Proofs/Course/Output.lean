import Mathlib.Data.List.Forall2
import TreeQuery.Proofs.Course.Closed

/-! What a course comes to: the items up to some number with the events on the way to them, and all
of both if the course comes to its end. An error may count as the last item. -/

namespace TreeQuery

structure Output (E A : Type) where
  items : List A
  events : List E

namespace Output

variable {E A : Type}

instance : Inhabited (Output E A) := ⟨⟨[], []⟩⟩

def concat (outputs : List (Output E A)) : Output E A :=
  ⟨outputs.flatMap items, outputs.flatMap events⟩

def append (first second : Output E A) : Output E A :=
  ⟨first.items ++ second.items, first.events ++ second.events⟩

instance : Append (Output E A) := ⟨append⟩

theorem concat_cons (output : Output E A) (outputs : List (Output E A)) :
    concat (output :: outputs) = output ++ concat outputs := rfl

theorem concat_append (outputs more : List (Output E A)) :
    concat (outputs ++ more) = concat outputs ++ concat more := by
  simp only [concat, List.flatMap_append]
  rfl

theorem concat_flatMap {α : Type} (xs : List α) (f : α → List (Output E A)) :
    concat (xs.flatMap f) = concat (xs.map fun x => concat (f x)) := by
  induction xs with
  | nil => rfl
  | cons x xs ih => rw [List.flatMap_cons, concat_append, ih, List.map_cons, concat_cons]

end Output

def Results.itemized {α : Type} (results : Results α) : List (Except MatchError α) :=
  results.items.map .ok ++
    match results.ending with
    | .failed error => [.error error]
    | .exhausted | .limit => []

namespace Course

variable {E A B : Type}

def take : Nat → Course E A → Option (Results A × List E)
  | 0, _ => some (⟨[], .limit⟩, [])
  | _ + 1, done => some (⟨[], .exhausted⟩, [])
  | _ + 1, failed error => some (⟨[], .failed error⟩, [])
  | _ + 1, pending => none
  | count + 1, event e rest => (take (count + 1) rest).map fun taken => (taken.1, e :: taken.2)
  | count + 1, item a rest =>
    (take count rest).map fun taken => ({ taken.1 with items := a :: taken.1.items }, taken.2)

/-- All items and events of a course that ends without an error. -/
def output? : Course E A → Option (Output E A)
  | done => some ⟨[], []⟩
  | failed _ | pending => none
  | event e rest => rest.output?.map fun output => { output with events := e :: output.events }
  | item a rest => rest.output?.map fun output => { output with items := a :: output.items }

def itemized (view : A → B) : Course E A → Course E (Except MatchError B)
  | done => done
  | failed error => item (.error error) done
  | pending => pending
  | event e rest => event e (rest.itemized view)
  | item a rest => item (.ok (view a)) (rest.itemized view)

section Take

theorem take_zero (c : Course E A) : c.take 0 = some (⟨[], .limit⟩, []) := by rw [take]

theorem take_events (es : List E) (c : Course E A) (count : Nat) :
    (events es c).take (count + 1) =
      (c.take (count + 1)).map fun taken => (taken.1, es ++ taken.2) := by
  induction es with
  | nil => exact Option.map_id'.symm
  | cons e es ih =>
      rw [events_cons, take, ih, Option.map_map]
      rfl

theorem take_mono {c d : Course E A} (below : Below c d) {count : Nat}
    {taken : Results A × List E} (known : c.take count = some taken) : d.take count = some taken := by
  induction below generalizing count taken with
  | pending =>
      cases count with
      | zero => rwa [take_zero] at known ⊢
      | succ count => cases known
  | done => exact known
  | failed error => exact known
  | event e rest ih =>
      cases count with
      | zero => exact known
      | succ count =>
          rw [take, Option.map_eq_some_iff] at known ⊢
          rcases known with ⟨later, found, rfl⟩
          exact ⟨later, ih found, rfl⟩
  | item a rest ih =>
      cases count with
      | zero => exact known
      | succ count =>
          rw [take, Option.map_eq_some_iff] at known ⊢
          rcases known with ⟨later, found, rfl⟩
          exact ⟨later, ih found, rfl⟩

theorem eventsUntil_of_take {c : Course E A} {count : Nat} {taken : Results A × List E}
    (known : c.take count = some taken) : c.eventsUntil count = some taken.2 := by
  induction c generalizing count taken with
  | done | failed error =>
      cases count <;> cases known <;> rfl
  | pending =>
      cases count with
      | zero =>
          cases known
          rfl
      | succ count => cases known
  | event e rest ih =>
      cases count with
      | zero =>
          cases known
          rfl
      | succ count =>
          rw [take, Option.map_eq_some_iff] at known
          rcases known with ⟨later, found, rfl⟩
          rw [eventsUntil, ih found]
          rfl
  | item a rest ih =>
      cases count with
      | zero =>
          cases known
          rfl
      | succ count =>
          rw [take, Option.map_eq_some_iff] at known
          rcases known with ⟨later, found, rfl⟩
          rw [eventsUntil, ih found]

end Take

section Whole

theorem output?_mono {c d : Course E A} (below : Below c d) {output : Output E A}
    (known : c.output? = some output) : d.output? = some output := by
  induction below generalizing output with
  | pending => cases known
  | done => exact known
  | failed error => exact known
  | event e rest ih | item a rest ih =>
      rw [output?, Option.map_eq_some_iff] at known ⊢
      rcases known with ⟨later, found, rfl⟩
      exact ⟨later, ih found, rfl⟩

theorem output?_append {c d : Course E A} {first second : Output E A}
    (one : c.output? = some first) (other : d.output? = some second) :
    (c ++ d).output? = some (first ++ second) := by
  induction c generalizing first with
  | done =>
      cases one
      exact other
  | failed error => cases one
  | pending => cases one
  | event e rest ih | item a rest ih =>
      rw [output?, Option.map_eq_some_iff] at one
      rcases one with ⟨later, found, rfl⟩
      exact congrArg (Option.map _) (ih found)

theorem output?_concat {α : Type} {xs : List α} {f : α → Course E A} {g : α → Output E A}
    (each : ∀ x ∈ xs, (f x).output? = some (g x)) :
    (concat (xs.map f)).output? = some (.concat (xs.map g)) := by
  induction xs with
  | nil => rfl
  | cons x xs ih =>
      have rest := ih fun y member => each y (List.mem_cons_of_mem x member)
      exact output?_append (each x List.mem_cons_self) rest

theorem output?_concat_pure (as : List A) :
    (concat (as.map pure) : Course E A).output? = some ⟨as, []⟩ := by
  induction as with
  | nil => rfl
  | cons a as ih => exact congrArg (Option.map _) ih

theorem exists_depth_output? {α : Type} {f : Nat → α → Course E A}
    (grows : ∀ x, Grows fun depth => f depth x) {xs : List α}
    (each : ∀ x ∈ xs, ∃ output depth, (f depth x).output? = some output) :
    ∃ depth, ∀ x ∈ xs, ∃ output, (f depth x).output? = some output := by
  induction xs with
  | nil => exact ⟨0, nofun⟩
  | cons x xs ih =>
      rcases each x List.mem_cons_self with ⟨output, depth, known⟩
      rcases ih fun y member => each y (List.mem_cons_of_mem x member) with ⟨depth', rest⟩
      refine ⟨depth + depth', fun y member => ?_⟩
      rcases List.mem_cons.mp member with rfl | later
      · exact ⟨output, output?_mono ((grows y).add depth depth') known⟩
      · rcases rest y later with ⟨other, found⟩
        exact ⟨other, output?_mono (Nat.add_comm depth' depth ▸ (grows y).add depth' depth) found⟩

theorem output?_unique {family : Nat → Course E A} (grows : Grows family) {depth depth' : Nat}
    {output output' : Output E A} (one : (family depth).output? = some output)
    (other : (family depth').output? = some output') : output = output' := by
  have later := output?_mono (grows.add depth depth') one
  have later' := output?_mono (grows.add depth' depth) other
  rw [Nat.add_comm, later] at later'
  exact Option.some.inj later'

theorem output?_of_take {c : Course E A} {count : Nat} {taken : Results A × List E}
    (known : c.take count = some taken) (ended : taken.1.ending = .exhausted) :
    c.output? = some ⟨taken.1.items, taken.2⟩ := by
  induction c generalizing count taken with
  | done =>
      cases count with
      | zero => cases known; cases ended
      | succ count =>
          cases known
          rfl
  | failed error =>
      cases count <;> cases known <;> cases ended
  | pending =>
      cases count with
      | zero => cases known; cases ended
      | succ count => cases known
  | event e rest ih | item a rest ih =>
      cases count with
      | zero => cases known; cases ended
      | succ count =>
          rw [take, Option.map_eq_some_iff] at known
          rcases known with ⟨later, found, rfl⟩
          rw [output?, ih found ended]
          rfl

theorem output?_of_answers {c : Course E A} {as : List A} {es : List E}
    (known : c.eventsUntil (as.length + 1) = some es)
    (answers : ∀ i < as.length + 1,
      c.results.answer? i = (as.map (fun a => .ok (some a)) ++ [.ok none])[i]?) :
    c.output? = some ⟨as, es⟩ := by
  induction c generalizing as es with
  | done =>
      have first := answers 0 (Nat.succ_pos _)
      rw [answer?_done] at first
      cases as with
      | nil =>
          cases known
          rfl
      | cons a as => cases first
  | failed error =>
      have first := answers 0 (Nat.succ_pos _)
      rw [answer?_failed_zero] at first
      cases as <;> cases first
  | pending => cases known
  | event e rest ih =>
      rw [eventsUntil, Option.map_eq_some_iff] at known
      rcases known with ⟨later, found, rfl⟩
      rw [output?, ih found answers]
      rfl
  | item a rest ih =>
      have first := answers 0 (Nat.succ_pos _)
      rw [answer?_item_zero] at first
      cases as with
      | nil => cases first
      | cons b as =>
          cases first
          have others (i : Nat) (asked : i < as.length + 1) :
              rest.results.answer? i = (as.map (fun a => .ok (some a)) ++ [.ok none])[i]? := by
            rw [← answer?_item_succ a rest i, answers (i + 1) (Nat.succ_lt_succ asked)]
            rfl
          rw [output?, ih known others]
          rfl

theorem take_of_output? {c : Course E A} {output : Output E A} (known : c.output? = some output)
    (count : Nat) :
    ∃ taken, c.take count = some taken ∧ taken.1.items = output.items.take count ∧
      (output.items.length < count → taken.1.ending = .exhausted ∧ taken.2 = output.events) := by
  induction c generalizing output count with
  | done =>
      cases known
      cases count with
      | zero => exact ⟨_, rfl, rfl, nofun⟩
      | succ count => exact ⟨_, rfl, rfl, fun _ => ⟨rfl, rfl⟩⟩
  | failed error => cases known
  | pending => cases known
  | event e rest ih =>
      rw [output?, Option.map_eq_some_iff] at known
      rcases known with ⟨later, found, rfl⟩
      cases count with
      | zero => exact ⟨_, rfl, rfl, nofun⟩
      | succ count =>
          rcases ih found (count + 1) with ⟨taken, shown, items, whole⟩
          refine ⟨_, congrArg (Option.map _) shown, items, fun more => ?_⟩
          exact ⟨(whole more).1, congrArg (e :: ·) (whole more).2⟩
  | item a rest ih =>
      rw [output?, Option.map_eq_some_iff] at known
      rcases known with ⟨later, found, rfl⟩
      cases count with
      | zero => exact ⟨_, rfl, rfl, nofun⟩
      | succ count =>
          rcases ih found count with ⟨taken, shown, items, whole⟩
          refine ⟨_, congrArg (Option.map _) shown, congrArg (a :: ·) items, fun more => ?_⟩
          exact whole (Nat.lt_of_succ_lt_succ more)

/-- The items that are taken from two courses one after the other come from the first alone, or the
first comes to its end before. -/
theorem take_append {c d : Course E A} {count : Nat} {taken : Results A × List E}
    (known : (c ++ d).take count = some taken) :
    c.take count = some taken ∨
      ∃ output later, c.output? = some output ∧ output.items.length < count ∧
        d.take (count - output.items.length) = some later ∧
        taken.1.items = output.items ++ later.1.items ∧ taken.2 = output.events ++ later.2 := by
  induction c generalizing count taken with
  | done =>
      cases count with
      | zero => exact .inl ((take_zero _).trans ((take_zero _).symm.trans known))
      | succ count => exact .inr ⟨_, taken, rfl, Nat.succ_pos count, known, rfl, rfl⟩
  | failed error => exact .inl known
  | pending => exact .inl known
  | event e rest ih =>
      cases count with
      | zero => exact .inl known
      | succ count =>
          rw [event_append, take, Option.map_eq_some_iff] at known
          rcases known with ⟨later, found, rfl⟩
          rcases ih found with here | ⟨output, last, whole, fewer, shown, items, events⟩
          · exact .inl (congrArg (Option.map _) here)
          · refine .inr ⟨_, last, congrArg (Option.map _) whole, fewer, shown, items, ?_⟩
            exact congrArg (e :: ·) events
  | item a rest ih =>
      cases count with
      | zero => exact .inl known
      | succ count =>
          rw [item_append, take, Option.map_eq_some_iff] at known
          rcases known with ⟨later, found, rfl⟩
          rcases ih found with here | ⟨output, last, whole, fewer, shown, items, events⟩
          · exact .inl (congrArg (Option.map _) here)
          · refine .inr ⟨_, last, congrArg (Option.map _) whole, Nat.succ_lt_succ fewer, ?_,
              congrArg (a :: ·) items, events⟩
            rw [List.length_cons, Nat.add_sub_add_right]
            exact shown

/-- The last of the items that are taken from several courses comes from one of them. Those before
it have come to their end, and those after it are not touched. -/
theorem take_concat {α : Type} {xs : List α} {f : α → Course E A} {count : Nat}
    {taken : Results A × List E} (known : (concat (xs.map f)).take (count + 1) = some taken)
    (full : taken.1.items.length = count + 1) :
    ∃ before x after outputs later last, xs = before ++ x :: after ∧
      List.Forall₂ (fun x output => (f x).output? = some output) before outputs ∧
      (f x).take (later + 1) = some last ∧ last.1.items.length = later + 1 ∧
      taken.1.items = (Output.concat outputs).items ++ last.1.items ∧
      taken.2 = (Output.concat outputs).events ++ last.2 := by
  induction xs generalizing count taken with
  | nil =>
      cases known
      cases full
  | cons x xs ih =>
      rcases take_append known with here | ⟨output, later, whole, fewer, shown, items, events⟩
      · exact ⟨[], x, xs, [], count, taken, rfl, .nil, here, full, rfl, rfl⟩
      · obtain ⟨others, rest⟩ : ∃ others, count + 1 - output.items.length = others + 1 :=
          Nat.exists_eq_add_of_lt (Nat.sub_pos_of_lt fewer) |>.imp fun _ same => by omega
        rw [rest] at shown
        have short : later.1.items.length = others + 1 := by
          rw [items, List.length_append] at full
          omega
        rcases ih shown short with
          ⟨before, x', after, outputs, more, last, split, each, final, size, items', events'⟩
        refine ⟨x :: before, x', after, output :: outputs, more, last, ?_, .cons whole each, final,
          size, ?_, ?_⟩
        · rw [split, List.cons_append]
        · rw [items, items', ← List.append_assoc]
          rfl
        · rw [events, events', ← List.append_assoc]
          rfl

end Whole

section Itemized

variable (view : A → B)

theorem itemized_events (es : List E) (c : Course E A) :
    (events es c).itemized view = events es (c.itemized view) := by
  induction es with
  | nil => rfl
  | cons e es ih => rw [events_cons, events_cons, itemized, ih]

theorem Below.itemized {c d : Course E A} (below : Below c d) :
    Below (c.itemized view) (d.itemized view) := by
  induction below with
  | pending => exact .pending _
  | done => exact .done
  | failed error => exact .refl _
  | event e rest ih => exact .event e ih
  | item a rest ih => exact .item _ ih

theorem Trails.itemized {first second : Nat → Course E A} {lag : Nat}
    (trails : Trails lag first second) :
    Trails lag (fun depth => (first depth).itemized view)
      fun depth => (second depth).itemized view :=
  fun depth => ⟨(trails depth).1.itemized view, (trails depth).2.itemized view⟩

theorem eventsUntil_itemized (c : Course E A) (count : Nat) :
    (c.itemized view).eventsUntil count = c.eventsUntil count := by
  induction c generalizing count with
  | done | pending => cases count <;> rfl
  | failed error => rcases count with _ | _ | count <;> rfl
  | event e rest ih =>
      cases count with
      | zero => rfl
      | succ count => rw [itemized, eventsUntil, eventsUntil, ih]
  | item a rest ih =>
      cases count with
      | zero => rfl
      | succ count => rw [itemized, eventsUntil, eventsUntil, ih]

variable {view}

theorem take_of_itemized {c : Course E A} {count : Nat} {taken : Results (Except MatchError B) × List E}
    (known : (c.itemized view).take count = some taken) :
    ∃ own, c.take count = some own ∧ (own.1.map view).itemized = taken.1.items ∧ own.2 = taken.2 := by
  induction c generalizing count taken with
  | done =>
      cases count <;> cases known <;> exact ⟨_, rfl, rfl, rfl⟩
  | failed error =>
      cases count with
      | zero =>
          cases known
          exact ⟨_, rfl, rfl, rfl⟩
      | succ count =>
          cases count <;> cases known <;> exact ⟨_, rfl, rfl, rfl⟩
  | pending =>
      cases count with
      | zero =>
          cases known
          exact ⟨_, rfl, rfl, rfl⟩
      | succ count => cases known
  | event e rest ih =>
      cases count with
      | zero =>
          cases known
          exact ⟨_, rfl, rfl, rfl⟩
      | succ count =>
          rw [itemized, take, Option.map_eq_some_iff] at known
          rcases known with ⟨later, found, rfl⟩
          rcases ih found with ⟨own, shown, items, events⟩
          exact ⟨_, congrArg (Option.map _) shown, items, congrArg (e :: ·) events⟩
  | item a rest ih =>
      cases count with
      | zero =>
          cases known
          exact ⟨_, rfl, rfl, rfl⟩
      | succ count =>
          rw [itemized, take, Option.map_eq_some_iff] at known
          rcases known with ⟨later, found, rfl⟩
          rcases ih found with ⟨own, shown, items, events⟩
          refine ⟨_, congrArg (Option.map _) shown, ?_, events⟩
          exact congrArg (Except.ok (view a) :: ·) items

theorem output?_itemized_of_take {c : Course E A} {count : Nat} {taken : Results A × List E}
    (known : c.take count = some taken) (ended : taken.1.ending ≠ .limit) :
    (c.itemized view).output? = some ⟨(taken.1.map view).itemized, taken.2⟩ := by
  induction c generalizing count taken with
  | done | failed error =>
      cases count with
      | zero =>
          cases known
          exact absurd rfl ended
      | succ count =>
          cases known
          rfl
  | pending =>
      cases count with
      | zero =>
          cases known
          exact absurd rfl ended
      | succ count => cases known
  | event e rest ih | item a rest ih =>
      cases count with
      | zero =>
          cases known
          exact absurd rfl ended
      | succ count =>
          rw [take, Option.map_eq_some_iff] at known
          rcases known with ⟨later, found, rfl⟩
          rw [itemized, output?, ih found ended]
          rfl

theorem exists_take_of_output? {c : Course E A} {output : Output E (Except MatchError B)}
    (known : (c.itemized view).output? = some output) :
    ∃ count taken, c.take count = some taken ∧ taken.1.ending ≠ .limit ∧
      (taken.1.map view).itemized = output.items ∧ taken.2 = output.events := by
  induction c generalizing output with
  | done | failed error =>
      cases known
      exact ⟨1, _, rfl, nofun, rfl, rfl⟩
  | pending => cases known
  | event e rest ih =>
      rw [itemized, output?, Option.map_eq_some_iff] at known
      rcases known with ⟨later, found, rfl⟩
      rcases ih found with ⟨count, taken, shown, ended, items, events⟩
      cases count with
      | zero =>
          rw [take_zero] at shown
          cases shown
          exact absurd rfl ended
      | succ count =>
          refine ⟨count + 1, _, congrArg (Option.map _) shown, ended, items, ?_⟩
          exact congrArg (e :: ·) events
  | item a rest ih =>
      rw [itemized, output?, Option.map_eq_some_iff] at known
      rcases known with ⟨later, found, rfl⟩
      rcases ih found with ⟨count, taken, shown, ended, items, events⟩
      refine ⟨count + 1, _, congrArg (Option.map _) shown, ended, ?_, events⟩
      exact congrArg (Except.ok (view a) :: ·) items

theorem output?_of_closed (view : A → B) {c : Course E A} (closed : Closed c) :
    ∃ events, (c.itemized view).output? = some ⟨(c.results.map view).itemized, events⟩ := by
  induction closed with
  | done | failed error => exact ⟨_, rfl⟩
  | event e rest ih | item a rest ih =>
      rcases ih with ⟨events, known⟩
      exact ⟨_, congrArg (Option.map _) known⟩

theorem output?_itemized (view : A → B) {c : Course E A} {output : Output E A}
    (known : c.output? = some output) :
    (c.itemized view).output? = some ⟨output.items.map fun a => .ok (view a), output.events⟩ := by
  induction c generalizing output with
  | done =>
      cases known
      rfl
  | failed error => cases known
  | pending => cases known
  | event e rest ih | item a rest ih =>
      rw [output?, Option.map_eq_some_iff] at known
      rcases known with ⟨later, found, rfl⟩
      rw [itemized, output?, ih found]
      rfl

theorem closed_of_output? {c : Course E A} {output : Output E (Except MatchError B)}
    (known : (c.itemized view).output? = some output) : Closed c := by
  induction c generalizing output with
  | done => exact .done
  | failed error => exact .failed error
  | pending => cases known
  | event e rest ih =>
      rw [itemized, output?, Option.map_eq_some_iff] at known
      rcases known with ⟨later, found, _⟩
      exact .event e (ih found)
  | item a rest ih =>
      rw [itemized, output?, Option.map_eq_some_iff] at known
      rcases known with ⟨later, found, _⟩
      exact .item a (ih found)

end Itemized

end Course

end TreeQuery
