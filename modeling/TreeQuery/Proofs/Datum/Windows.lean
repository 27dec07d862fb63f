import TreeQuery.Course.Matching
import TreeQuery.Enumerator.Outcome

/-! The runs of neighbours in a list. -/

namespace TreeQuery

variable {α : Type} {width : Nat} {items run : List α}

theorem exists_of_mem_windows (member : run ∈ windows width items) :
    ∃ start, start + width ≤ items.length ∧ run = (items.drop start).take width := by
  rcases List.mem_map.mp member with ⟨start, within, rfl⟩
  have bound : start < items.length + 1 - width := List.mem_range.mp within
  exact ⟨start, by omega, rfl⟩

theorem length_of_mem_windows (member : run ∈ windows width items) : run.length = width := by
  rcases exists_of_mem_windows member with ⟨start, bound, rfl⟩
  rw [List.length_take, List.length_drop]
  omega

theorem subset_of_mem_windows (member : run ∈ windows width items) : run ⊆ items := by
  rcases exists_of_mem_windows member with ⟨start, _, rfl⟩
  exact fun item present => List.mem_of_mem_drop (List.mem_of_mem_take present)

theorem windows_of_short (short : items.length < width) : windows width items = [] := by
  have none : items.length + 1 - width = 0 := by omega
  rw [windows, none, List.range_zero, List.map_nil]

/-- The search tries the slices of a list at the same starts, in the same order. -/
theorem slices_eq_windows (width : Nat) (items : List α) : slices width items = windows width items := by
  by_cases fits : width ≤ items.length
  · have starts : items.length - width + 1 = items.length + 1 - width := by omega
    simp only [slices, windows, if_pos fits, starts, List.extract_eq_take_drop, Nat.add_sub_cancel_left]
  · rw [slices, if_neg fits, windows_of_short (Nat.lt_of_not_le fits)]

theorem windows_zero (items : List α) :
    windows 0 items = List.replicate (items.length + 1) [] := by
  simp only [windows, List.take_zero, Nat.sub_zero, List.map_const', List.length_range]

theorem slices_one (items : List α) : slices 1 items = items.map fun item => [item] := by
  rw [slices_eq_windows]
  apply List.ext_getElem
  · simp only [windows, List.length_map, List.length_range, Nat.add_sub_cancel]
  · intro i within within'
    have bound : i < items.length := by simpa only [List.length_map] using within'
    simp only [windows, List.getElem_map, List.getElem_range]
    rw [List.drop_eq_getElem_cons bound, List.take_succ_cons, List.take_zero]

end TreeQuery
