import Mathlib.Data.List.TakeWhile

/-!
# Texts with a mark

A text is cut at the first occurrence of a mark: what stands before it has none, and the two
parts determine each other's place.
-/

namespace Shale.Marks

variable {α : Type*} [DecidableEq α] {mark first : α} {front rest other more text : List α}

theorem takeWhile_append (unmarked : mark ∉ front) :
    (front ++ mark :: rest).takeWhile (fun a => a ≠ mark) = front := by
  rw [List.takeWhile_append_of_pos]
  · simp
  · simpa using fun a member => ne_of_mem_of_not_mem member unmarked

theorem dropWhile_append (unmarked : mark ∉ front) :
    (front ++ mark :: rest).dropWhile (fun a => a ≠ mark) = mark :: rest := by
  rw [List.dropWhile_append_of_pos]
  · simp
  · simpa using fun a member => ne_of_mem_of_not_mem member unmarked

theorem notMem_takeWhile (mark : α) (text : List α) : mark ∉ text.takeWhile fun a => a ≠ mark := by
  intro mem
  simpa using List.mem_takeWhile_imp mem

theorem eq_append (found : text.dropWhile (fun a => a ≠ mark) = first :: rest) :
    text = text.takeWhile (fun a => a ≠ mark) ++ mark :: rest := by
  have stops := List.head?_dropWhile_not (fun a => decide (a ≠ mark)) text
  rw [found] at stops
  have same : first = mark := by simpa using stops
  rw [← same, ← found, same, List.takeWhile_append_dropWhile]

theorem append_inj (unmarked : mark ∉ front) (unmarked' : mark ∉ other)
    (same : front ++ mark :: rest = other ++ mark :: more) : front = other ∧ rest = more := by
  have fronts : front = other := by
    rw [← takeWhile_append unmarked, same, takeWhile_append unmarked']
  subst fronts
  exact ⟨rfl, List.cons_inj_right mark |>.mp (List.append_cancel_left same)⟩

end Shale.Marks
