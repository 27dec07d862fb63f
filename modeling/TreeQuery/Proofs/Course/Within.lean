import TreeQuery.Proofs.Course.Items
import TreeQuery.Proofs.Course.Related

/-! Comparing two courses on items that have some property. Where a course goes on from its items, it
is enough to know how it goes on from items with the property. -/

namespace TreeQuery.Course

variable {E A B : Type} {P : A → Prop} {Q : B → Prop}

/-- The first course lies below the second, and its items have the property. -/
structure BelowWithin (P : A → Prop) (c d : Course E A) : Prop where
  below : Below c d
  each : ∀ a ∈ c, P a

theorem Below.bind_of_mem {c d : Course E A} {next next' : A → Course E B} (first : Below c d)
    (later : ∀ a ∈ c, Below (next a) (next' a)) : Below (c.bind next) (d.bind next') := by
  induction first with
  | pending => exact .pending _
  | done => exact .done
  | failed error => exact .failed error
  | event e rest ih => exact .event e (ih later)
  | item a rest ih =>
      have own := later a (mem_item.mpr (.inl rfl))
      exact own.append (ih fun b member => later b (mem_item.mpr (.inr member)))

theorem Below.within {c d : Course E A} (below : Below c d) : BelowWithin (fun _ => True) c d :=
  ⟨below, fun _ _ => trivial⟩

namespace BelowWithin

variable {c d c' d' : Course E A}

theorem pending (d : Course E A) : BelowWithin P pending d := ⟨.pending d, nofun⟩

theorem done : BelowWithin P (done : Course E A) done := ⟨.done, nofun⟩

theorem failed (error : MatchError) : BelowWithin P (failed error : Course E A) (failed error) :=
  ⟨.failed error, nofun⟩

theorem pure {a : A} (holds : P a) : BelowWithin P (pure a : Course E A) (pure a) := by
  refine ⟨.refl _, fun b member => ?_⟩
  rw [mem_pure.mp member]
  exact holds

theorem event (e : E) (rest : BelowWithin P c d) : BelowWithin P (event e c) (event e d) :=
  ⟨.event e rest.below, rest.each⟩

theorem append (first : BelowWithin P c d) (second : BelowWithin P c' d') :
    BelowWithin P (c ++ c') (d ++ d') := by
  refine ⟨first.below.append second.below, fun a member => ?_⟩
  rcases mem_or_of_mem_append member with here | there
  · exact first.each a here
  · exact second.each a there

theorem bind {next next' : A → Course E B} (first : BelowWithin P c d)
    (later : ∀ a, P a → BelowWithin Q (next a) (next' a)) :
    BelowWithin Q (c.bind next) (d.bind next') := by
  refine ⟨first.below.bind_of_mem fun a member => (later a (first.each a member)).below, ?_⟩
  intro b member
  rcases exists_of_mem_bind member with ⟨a, present, found⟩
  exact (later a (first.each a present)).each b found

theorem concat {α : Type} (items : List α) {f f' : α → Course E A}
    (each : ∀ a, BelowWithin P (f a) (f' a)) :
    BelowWithin P (concat (items.map f)) (concat (items.map f')) := by
  induction items with
  | nil => exact done
  | cons a items ih => exact (each a).append ih

theorem filter_event {visible : E → Bool} (e : E)
    (rest : BelowWithin P (c.filter visible) (d.filter visible)) :
    BelowWithin P ((Course.event e c).filter visible) ((Course.event e d).filter visible) := by
  rw [filter, filter]
  split
  · exact rest.event e
  · exact rest

end BelowWithin

end TreeQuery.Course
