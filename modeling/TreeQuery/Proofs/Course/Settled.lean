import TreeQuery.Proofs.Course.Output

/-! What courses come to that are known to their ends. Their results are put together as the courses
are, and what would come after an error is left out. -/

namespace TreeQuery

namespace Results

variable {α : Type}

instance : Inhabited (Results α) := ⟨⟨[], .exhausted⟩⟩

def append (first second : Results α) : Results α :=
  match first.ending with
  | .exhausted => ⟨first.items ++ second.items, second.ending⟩
  | .limit | .failed _ => first

instance : Append (Results α) := ⟨append⟩

def concat : List (Results α) → Results α
  | [] => ⟨[], .exhausted⟩
  | results :: more => results ++ concat more

theorem exhausted_append (items : List α) (second : Results α) :
    (⟨items, .exhausted⟩ : Results α) ++ second = ⟨items ++ second.items, second.ending⟩ := rfl

theorem limit_append (items : List α) (second : Results α) :
    (⟨items, .limit⟩ : Results α) ++ second = ⟨items, .limit⟩ := rfl

theorem failed_append (items : List α) (error : MatchError) (second : Results α) :
    (⟨items, .failed error⟩ : Results α) ++ second = ⟨items, .failed error⟩ := rfl

theorem append_assoc (first second third : Results α) :
    first ++ second ++ third = first ++ (second ++ third) := by
  rcases first with ⟨items, _ | _ | error⟩
  · rcases second with ⟨items', _ | _ | error⟩
    · simp only [exhausted_append, List.append_assoc]
    · simp only [exhausted_append, limit_append]
    · simp only [exhausted_append, failed_append]
  · simp only [limit_append]
  · simp only [failed_append]

theorem concat_append (results more : List (Results α)) :
    concat (results ++ more) = concat results ++ concat more := by
  induction results with
  | nil => rfl
  | cons first results ih => rw [List.cons_append, concat, concat, ih, append_assoc]

theorem concat_flatMap {β : Type} (xs : List β) (f : β → List (Results α)) :
    concat (xs.flatMap f) = concat (xs.map fun x => concat (f x)) := by
  induction xs with
  | nil => rfl
  | cons x xs ih => rw [List.flatMap_cons, concat_append, ih, List.map_cons, concat]

end Results

def uptoError {α : Type} : List (Except MatchError α) → List (Except MatchError α)
  | [] => []
  | .ok a :: items => .ok a :: uptoError items
  | .error error :: _ => [.error error]

section Errors

variable {α : Type}

theorem uptoError_append_ok (as : List α) (items : List (Except MatchError α)) :
    uptoError (as.map .ok ++ items) = as.map .ok ++ uptoError items := by
  induction as with
  | nil => rfl
  | cons a as ih => rw [List.map_cons, List.cons_append, uptoError, ih, List.cons_append]

theorem uptoError_of_fine {items : List (Except MatchError α)}
    (fine : ∀ error, .error error ∉ items) : uptoError items = items := by
  induction items with
  | nil => rfl
  | cons item items ih =>
      cases item with
      | error error => exact absurd List.mem_cons_self (fine error)
      | ok a =>
          rw [uptoError, ih fun error present => fine error (List.mem_cons_of_mem _ present)]

theorem Results.itemized_exhausted_append (as : List α) (second : Results α) :
    ((⟨as, .exhausted⟩ : Results α) ++ second).itemized = as.map .ok ++ second.itemized := by
  rw [exhausted_append, itemized, itemized, List.map_append, List.append_assoc]

theorem Results.itemized_concat {results : List (Results α)}
    (known : ∀ r ∈ results, r.ending ≠ .limit) :
    (Results.concat results).itemized = uptoError (results.flatMap itemized) := by
  induction results with
  | nil => rfl
  | cons first results ih =>
      have rest := ih fun r member => known r (List.mem_cons_of_mem first member)
      rcases first with ⟨items, _ | _ | error⟩
      · calc
          _ = items.map .ok ++ (concat results).itemized := itemized_exhausted_append items _
          _ = items.map .ok ++ uptoError (results.flatMap itemized) := by rw [rest]
          _ = uptoError (items.map .ok ++ results.flatMap itemized) :=
            (uptoError_append_ok items _).symm
          _ = uptoError (itemized ⟨items, .exhausted⟩ ++ results.flatMap itemized) :=
            congrArg (fun own => uptoError (own ++ _)) (List.append_nil _).symm
      · exact absurd rfl (known _ List.mem_cons_self)
      · -- The error is the first one, so nothing is left of the other results.
        calc
          _ = items.map .ok ++ uptoError (.error error :: results.flatMap itemized) := rfl
          _ = uptoError (items.map .ok ++ .error error :: results.flatMap itemized) :=
            (uptoError_append_ok items _).symm
          _ = uptoError (itemized ⟨items, .failed error⟩ ++ results.flatMap itemized) :=
            congrArg uptoError (List.append_cons ..)

theorem Results.map_append {β : Type} (f : α → β) (first second : Results α) :
    (first ++ second).map f = first.map f ++ second.map f := by
  rcases first with ⟨items, _ | _ | error⟩
  · simp only [Results.map, exhausted_append, List.map_append]
  · rfl
  · rfl

theorem Results.map_concat {β : Type} (f : α → β) (results : List (Results α)) :
    (Results.concat results).map f = .concat (results.map (Results.map f)) := by
  induction results with
  | nil => rfl
  | cons first results ih => rw [concat, map_append, ih, List.map_cons, concat]

end Errors

namespace Course

variable {E A B : Type}

theorem results_append (c d : Course E A) : (c ++ d).results = c.results ++ d.results := by
  induction c with
  | done | failed error | pending => rfl
  | event e rest ih => exact ih
  | item a rest ih =>
      rw [item_append, results, results, ih]
      rcases rest.results with ⟨items, _ | _ | error⟩ <;> rfl

theorem Closed.ending_ne_limit {c : Course E A} (closed : Closed c) : c.results.ending ≠ .limit := by
  induction closed with
  | done | failed error => nofun
  | event e rest ih | item a rest ih => exact ih

/-- At some depth the course is known to its end, where it has come to the results. -/
def Settles (family : Nat → Course E A) (results : Results A) : Prop :=
  ∃ depth, Closed (family depth) ∧ (family depth).results = results

namespace Settles

variable {family family' : Nat → Course E A} {results results' : Results A}

theorem settles (own : Settles family results) (grows : Grows family) :
    ∃ depth c, Closed c ∧ c.results = results ∧ ∀ more, family (depth + more) = c := by
  rcases own with ⟨depth, closed, same⟩
  exact ⟨depth, family depth, closed, same, fun more => closed.eq_of_below (grows.add depth more)⟩

theorem ending_ne_limit (own : Settles family results) : results.ending ≠ .limit := by
  rcases own with ⟨depth, closed, rfl⟩
  exact closed.ending_ne_limit

theorem succ (own : Settles family results) (grows : Grows family) :
    Settles (fun depth => family (depth + 1)) results := by
  rcases own.settles grows with ⟨depth, c, closed, known, same⟩
  exact ⟨depth, (congrArg Closed (same 1)).mpr closed, (congrArg Course.results (same 1)).trans known⟩

theorem of_succ (own : Settles (fun depth => family (depth + 1)) results) : Settles family results := by
  rcases own with ⟨depth, known⟩
  exact ⟨depth + 1, known⟩

theorem event (e : E) (own : Settles family results) :
    Settles (fun depth => .event e (family depth)) results := by
  rcases own with ⟨depth, closed, known⟩
  exact ⟨depth, .event e closed, known⟩

theorem append (one : Settles family results) (other : Settles family' results')
    (grows : Grows family) (grows' : Grows family') :
    Settles (fun depth => family depth ++ family' depth) (results ++ results') := by
  rcases one.settles grows with ⟨depth, c, closed, rfl, same⟩
  rcases other.settles grows' with ⟨depth', d, closed', rfl, same'⟩
  have known : family (depth + depth') ++ family' (depth + depth') = c ++ d := by
    rw [same, Nat.add_comm, same']
  exact ⟨depth + depth', (congrArg Closed known).mpr (closed.append closed'),
    (congrArg Course.results known).trans (results_append c d)⟩

theorem concat {α : Type} {f : Nat → α → Course E A} {g : α → Results A} (items : List α)
    (each : ∀ a ∈ items, Settles (fun depth => f depth a) (g a))
    (grows : ∀ a, Grows fun depth => f depth a) :
    Settles (fun depth => Course.concat (items.map (f depth))) (.concat (items.map g)) := by
  induction items with
  | nil => exact ⟨0, .done, rfl⟩
  | cons a items ih =>
      have rest := ih fun b member => each b (List.mem_cons_of_mem a member)
      have grow : Grows fun depth => Course.concat (items.map (f depth)) :=
        fun depth => .concat items fun b => grows b depth
      exact (each a List.mem_cons_self).append rest (grows a) grow

end Settles

end Course

end TreeQuery
