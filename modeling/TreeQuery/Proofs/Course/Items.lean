import TreeQuery.Proofs.Course.Reading

/-! The items of a course, and where they come from when courses are put together. -/

namespace TreeQuery.Course

variable {E A B : Type}

instance : Membership A (Course E A) := ⟨fun c a => a ∈ c.results.items⟩

theorem mem_item {a b : A} {rest : Course E A} : a ∈ item b rest ↔ a = b ∨ a ∈ rest :=
  List.mem_cons

theorem mem_pure {a b : A} : a ∈ (pure b : Course E A) ↔ a = b := List.mem_singleton

theorem not_mem_done (a : A) : a ∉ (done : Course E A) := List.not_mem_nil

theorem not_mem_failed (error : MatchError) (a : A) : a ∉ (failed error : Course E A) :=
  List.not_mem_nil

theorem mem_event {e : E} {a : A} {rest : Course E A} : a ∈ event e rest ↔ a ∈ rest := Iff.rfl

theorem mem_or_of_mem_append {a : A} {c d : Course E A} (member : a ∈ c ++ d) : a ∈ c ∨ a ∈ d := by
  induction c with
  | done => exact .inr member
  | failed error => exact .inl member
  | pending => exact .inl member
  | event e rest ih => exact ih member
  | item b rest ih =>
      rw [item_append, mem_item] at member
      rcases member with rfl | later
      · exact .inl (mem_item.mpr (.inl rfl))
      · rcases ih later with here | there
        · exact .inl (mem_item.mpr (.inr here))
        · exact .inr there

theorem exists_of_mem_bind {b : B} {c : Course E A} {next : A → Course E B}
    (member : b ∈ c.bind next) : ∃ a ∈ c, b ∈ next a := by
  induction c with
  | done => exact absurd member (not_mem_done b)
  | failed error => exact absurd member (not_mem_failed error b)
  | pending => exact absurd member List.not_mem_nil
  | event e rest ih => exact ih member
  | item a rest ih =>
      rcases mem_or_of_mem_append member with here | later
      · exact ⟨a, mem_item.mpr (.inl rfl), here⟩
      · rcases ih later with ⟨a', present, found⟩
        exact ⟨a', mem_item.mpr (.inr present), found⟩

theorem exists_of_mem_concat {α : Type} {a : A} {items : List α} {course : α → Course E A}
    (member : a ∈ concat (items.map course)) : ∃ i ∈ items, a ∈ course i := by
  induction items with
  | nil => exact absurd member (not_mem_done a)
  | cons i items ih =>
      rcases mem_or_of_mem_append member with here | later
      · exact ⟨i, List.mem_cons_self, here⟩
      · rcases ih later with ⟨i', present, found⟩
        exact ⟨i', List.mem_cons_of_mem i present, found⟩

theorem mem_of_answer? {a : A} {c : Course E A} {i : Nat}
    (known : c.results.answer? i = some (.ok (some a))) : a ∈ c := by
  unfold Results.answer? at known
  cases here : c.results.items[i]? with
  | some b =>
      rw [here] at known
      cases known
      exact List.mem_of_getElem? here
  | none =>
      rw [here] at known
      cases ending : c.results.ending with
      | exhausted => simp [ending] at known
      | limit => simp [ending] at known
      | failed error =>
          simp only [ending, Option.some.injEq] at known
          split at known <;> cases known

end TreeQuery.Course
