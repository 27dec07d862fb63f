import TreeQuery.Course.Basic

/-! The order on courses. One course lies below another if it is the other one left open at some
place. All operations on courses keep the order. A course that is only known up to a depth is a
family of courses which grows with the depth. -/

namespace TreeQuery.Course

variable {E A B : Type}

inductive Below : Course E A → Course E A → Prop where
  | pending (c : Course E A) : Below pending c
  | done : Below done done
  | failed (error : MatchError) : Below (failed error) (failed error)
  | event (e : E) {c d : Course E A} (rest : Below c d) : Below (event e c) (event e d)
  | item (a : A) {c d : Course E A} (rest : Below c d) : Below (item a c) (item a d)

namespace Below

theorem refl (c : Course E A) : Below c c := by
  induction c with
  | done => exact .done
  | failed error => exact .failed error
  | pending => exact .pending _
  | event e rest ih => exact .event e ih
  | item a rest ih => exact .item a ih

theorem of_eq {c d : Course E A} (same : c = d) : Below c d := by
  rw [same]
  exact refl d

theorem trans {c d f : Course E A} (first : Below c d) (second : Below d f) : Below c f := by
  induction first generalizing f with
  | pending => exact .pending f
  | done => exact second
  | failed error => exact second
  | event e rest ih =>
      cases second with
      | event _ later => exact .event e (ih later)
  | item a rest ih =>
      cases second with
      | item _ later => exact .item a (ih later)

theorem append {c c' d d' : Course E A} (first : Below c c') (second : Below d d') :
    Below (c ++ d) (c' ++ d') := by
  induction first with
  | pending => exact .pending _
  | done => exact second
  | failed error => exact .failed error
  | event e rest ih => exact .event e ih
  | item a rest ih => exact .item a ih

theorem bind {c c' : Course E A} {next next' : A → Course E B} (first : Below c c')
    (later : ∀ a, Below (next a) (next' a)) : Below (c.bind next) (c'.bind next') := by
  induction first with
  | pending => exact .pending _
  | done => exact .done
  | failed error => exact .failed error
  | event e rest ih => exact .event e ih
  | item a rest ih => exact (later a).append ih

theorem concat {α : Type} (items : List α) {f f' : α → Course E A}
    (each : ∀ a, Below (f a) (f' a)) :
    Below (Course.concat (items.map f)) (Course.concat (items.map f')) := by
  induction items with
  | nil => exact .done
  | cons a items ih => exact (each a).append ih

end Below

theorem concat_bind {α : Type} (items : List α) (f : α → Course E A) (next : A → Course E B) :
    (concat (items.map f)).bind next = concat (items.map fun a => (f a).bind next) := by
  induction items with
  | nil => rfl
  | cons a items ih => rw [List.map_cons, List.map_cons, concat, concat, append_bind, ih]

theorem concat_append (cs ds : List (Course E A)) : concat (cs ++ ds) = concat cs ++ concat ds := by
  induction cs with
  | nil => rfl
  | cons c cs ih => rw [List.cons_append, concat, concat, ih, append_assoc]

theorem concat_flatMap {α β : Type} (xs : List α) (f : α → List β) (course : β → Course E A) :
    concat ((xs.flatMap f).map course) = concat (xs.map fun x => concat ((f x).map course)) := by
  induction xs with
  | nil => rfl
  | cons x xs ih => rw [List.flatMap_cons, List.map_append, concat_append, ih, List.map_cons, concat]

def events (es : List E) (c : Course E A) : Course E A := es.foldr event c

theorem events_nil (c : Course E A) : events [] c = c := rfl

theorem events_cons (e : E) (es : List E) (c : Course E A) :
    events (e :: es) c = event e (events es c) := rfl

theorem events_append (es fs : List E) (c : Course E A) :
    events (es ++ fs) c = events es (events fs c) := List.foldr_append

theorem events_then (es : List E) (c d : Course E A) : events es c ++ d = events es (c ++ d) := by
  induction es with
  | nil => rfl
  | cons e es ih => rw [events_cons, events_cons, event_append, ih]

theorem events_bind (es : List E) (c : Course E A) (next : A → Course E B) :
    (events es c).bind next = events es (c.bind next) := by
  induction es with
  | nil => rfl
  | cons e es ih => rw [events_cons, events_cons, bind, ih]

theorem Below.events (es : List E) {c d : Course E A} (rest : Below c d) :
    Below (Course.events es c) (Course.events es d) := by
  induction es with
  | nil => exact rest
  | cons e es ih => exact .event e ih

def Grows (family : Nat → Course E A) : Prop :=
  ∀ depth, Below (family depth) (family (depth + 1))

/-- The first family shows no more than the second at each depth, and catches up with it `lag`
levels deeper. So both show the same in the end. -/
def Trails (lag : Nat) (first second : Nat → Course E A) : Prop :=
  ∀ depth, Below (first depth) (second depth) ∧ Below (second depth) (first (depth + lag))

theorem Grows.add {family : Nat → Course E A} (grows : Grows family) (depth more : Nat) :
    Below (family depth) (family (depth + more)) := by
  induction more with
  | zero => exact .refl _
  | succ more ih => exact ih.trans (grows (depth + more))

theorem Grows.of_le {family : Nat → Course E A} (grows : Grows family) {depth deeper : Nat}
    (le : depth ≤ deeper) : Below (family depth) (family deeper) := by
  rcases Nat.exists_eq_add_of_le le with ⟨more, rfl⟩
  exact grows.add depth more

namespace Trails

theorem of_eq {first second : Nat → Course E A} (grows : Grows first)
    (same : ∀ depth, first depth = second depth) (lag : Nat) : Trails lag first second := by
  intro depth
  rw [← same depth]
  exact ⟨.refl _, grows.add depth lag⟩

theorem succ {family : Nat → Course E A} (grows : Grows family) :
    Trails 1 family fun depth => family (depth + 1) :=
  fun depth => ⟨grows depth, .refl _⟩

theorem congr {first second third : Nat → Course E A} {lag : Nat} (trails : Trails lag first second)
    (same : ∀ depth, second depth = third depth) : Trails lag first third := by
  have equal : second = third := funext same
  rwa [equal] at trails

theorem trans {first second third : Nat → Course E A} {lag lag' : Nat}
    (one : Trails lag first second) (other : Trails lag' second third) :
    Trails (lag' + lag) first third := by
  intro depth
  refine ⟨(one depth).1.trans (other depth).1, (other depth).2.trans ?_⟩
  rw [← Nat.add_assoc]
  exact (one (depth + lag')).2

theorem events {first second : Nat → Course E A} {lag : Nat} (trails : Trails lag first second)
    (es : List E) :
    Trails lag (fun depth => Course.events es (first depth))
      (fun depth => Course.events es (second depth)) :=
  fun depth => ⟨(trails depth).1.events es, (trails depth).2.events es⟩

theorem item {first second : Nat → Course E A} {lag : Nat} (trails : Trails lag first second)
    (a : A) : Trails lag (fun depth => .item a (first depth)) fun depth => .item a (second depth) :=
  fun depth => ⟨.item a (trails depth).1, .item a (trails depth).2⟩

theorem append {first second rest : Nat → Course E A} {lag : Nat}
    (trails : Trails lag first second) (grows : Grows rest) :
    Trails lag (fun depth => first depth ++ rest depth) (fun depth => second depth ++ rest depth) :=
  fun depth => ⟨(trails depth).1.append (.refl _), (trails depth).2.append (grows.add depth lag)⟩

theorem bind {first second : Nat → Course E A} {next : Nat → A → Course E B} {lag : Nat}
    (trails : Trails lag first second) (grows : ∀ a, Grows fun depth => next depth a) :
    Trails lag (fun depth => (first depth).bind (next depth))
      (fun depth => (second depth).bind (next depth)) :=
  fun depth => ⟨(trails depth).1.bind fun _ => .refl _,
    (trails depth).2.bind fun a => (grows a).add depth lag⟩

end Trails

end TreeQuery.Course
