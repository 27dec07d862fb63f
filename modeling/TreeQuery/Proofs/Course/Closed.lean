import TreeQuery.Proofs.Course.Reading

/-! Courses that are known to their end. A family that grows with the depth closes if one of its
courses is known to the end; from that depth on the family stays the same. -/

namespace TreeQuery.Course

variable {E A B : Type}

/-- Nothing of the course is left open. -/
inductive Closed : Course E A → Prop where
  | done : Closed done
  | failed (error : MatchError) : Closed (failed error)
  | event (e : E) {c : Course E A} (rest : Closed c) : Closed (event e c)
  | item (a : A) {c : Course E A} (rest : Closed c) : Closed (item a c)

namespace Closed

theorem pure (a : A) : Closed (Course.pure a : Course E A) := .item a .done

theorem append {c d : Course E A} (first : Closed c) (second : Closed d) : Closed (c ++ d) := by
  induction first with
  | done => exact second
  | failed error => exact .failed error
  | event e rest ih => exact .event e ih
  | item a rest ih => exact .item a ih

theorem eq_of_below {c d : Course E A} (closed : Closed c) (below : Below c d) : d = c := by
  induction below with
  | pending => cases closed
  | done => rfl
  | failed error => rfl
  | event e rest ih =>
      cases closed with
      | event _ closed => rw [ih closed]
  | item a rest ih =>
      cases closed with
      | item _ closed => rw [ih closed]

theorem eventsUntil {c : Course E A} (closed : Closed c) (count : Nat) :
    ∃ es, c.eventsUntil count = some es := by
  induction closed generalizing count with
  | done => cases count <;> exact ⟨[], rfl⟩
  | failed error => cases count <;> exact ⟨[], rfl⟩
  | event e rest ih =>
      cases count with
      | zero => exact ⟨[], rfl⟩
      | succ count =>
          rcases ih (count + 1) with ⟨es, known⟩
          exact ⟨e :: es, by rw [Course.eventsUntil, known]; rfl⟩
  | item a rest ih =>
      cases count with
      | zero => exact ⟨[], rfl⟩
      | succ count => exact ih count

theorem ends {c : Course E A} (closed : Closed c) :
    ∃ i answer, c.results.answer? i = some answer ∧ ∀ a, answer ≠ .ok (some a) := by
  induction closed with
  | done => exact ⟨0, .ok none, answer?_done 0, nofun⟩
  | failed error => exact ⟨0, .error error, answer?_failed_zero error, nofun⟩
  | event e rest ih => exact ih
  | item a rest ih =>
      rcases ih with ⟨i, answer, known, final⟩
      exact ⟨i + 1, answer, (answer?_item_succ a _ i).trans known, final⟩

end Closed

/-- The family shows to the end how the course goes on. -/
def Closes (family : Nat → Course E A) : Prop := ∃ depth, Closed (family depth)

namespace Closes

theorem const {c : Course E A} (closed : Closed c) : Closes fun _ => c := ⟨0, closed⟩

theorem of_succ {family : Nat → Course E A} (closes : Closes fun depth => family (depth + 1)) :
    Closes family := by
  rcases closes with ⟨depth, closed⟩
  exact ⟨depth + 1, closed⟩

theorem settles {family : Nat → Course E A} (closes : Closes family) (grows : Grows family) :
    ∃ depth c, Closed c ∧ ∀ more, family (depth + more) = c := by
  rcases closes with ⟨depth, closed⟩
  exact ⟨depth, family depth, closed, fun more => closed.eq_of_below (grows.add depth more)⟩

theorem event {family : Nat → Course E A} (e : E) (closes : Closes family) :
    Closes fun depth => .event e (family depth) := by
  rcases closes with ⟨depth, closed⟩
  exact ⟨depth, .event e closed⟩

theorem append {first second : Nat → Course E A} (one : Closes first) (other : Closes second)
    (grows : Grows first) (grows' : Grows second) : Closes fun depth => first depth ++ second depth := by
  rcases one.settles grows with ⟨depth, c, closed, same⟩
  rcases other.settles grows' with ⟨depth', d, closed', same'⟩
  have known : first (depth + depth') ++ second (depth + depth') = c ++ d := by
    calc
      _ = c ++ second (depth' + depth) := by rw [same, Nat.add_comm]
      _ = c ++ d := by rw [same']
  exact ⟨depth + depth', (congrArg Closed known).mpr (closed.append closed')⟩

theorem bind {family : Nat → Course E A} {next : Nat → A → Course E B} (closes : Closes family)
    (each : ∀ a, Closes fun depth => next depth a) (grows : Grows family)
    (grows' : ∀ a, Grows fun depth => next depth a) :
    Closes fun depth => (family depth).bind (next depth) := by
  rcases closes.settles grows with ⟨depth, c, closed, same⟩
  have grow (d : Course E A) : Grows fun depth => d.bind (next depth) :=
    fun depth => (Below.refl d).bind fun a => grows' a depth
  have later : Closes fun depth => c.bind (next depth) := by
    clear same
    induction closed with
    | done => exact const .done
    | failed error => exact const (.failed error)
    | event e rest ih => exact ih.event e
    | @item a rest closed ih => exact (each a).append ih (grows' a) (grow rest)
  rcases later.settles (grow c) with ⟨depth', d, closed', same'⟩
  have known : (family (depth + depth')).bind (next (depth + depth')) = d := by
    calc
      _ = c.bind (next (depth' + depth)) := by rw [same, Nat.add_comm]
      _ = d := same' depth
  exact ⟨depth + depth', (congrArg Closed known).mpr closed'⟩

theorem concat {α : Type} {f : Nat → α → Course E A} (items : List α)
    (each : ∀ a ∈ items, Closes fun depth => f depth a) (grows : ∀ a, Grows fun depth => f depth a) :
    Closes fun depth => Course.concat (items.map (f depth)) := by
  induction items with
  | nil => exact const .done
  | cons a items ih =>
      have rest := ih fun b member => each b (List.mem_cons_of_mem a member)
      have grow : Grows fun depth => Course.concat (items.map (f depth)) :=
        fun depth => .concat items fun b => grows b depth
      exact (each a List.mem_cons_self).append rest (grows a) grow

end Closes

end TreeQuery.Course
