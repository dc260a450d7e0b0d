import Mathlib.Order.Lattice

/-!
# Three-way comparisons, and sorting a slice in place

A comparison as Go code writes it tells the order of two values by the sign of its result.

Insertion sort as Go code writes it out takes each index in turn, and swaps the element there with
the one before it as long as it is less. The slice is a vector, so that every index that the loops
use is inside.
-/

namespace Shale

variable {α β : Type} [LinearOrder β] {rank : α → β}

structure TotalOrder (cmp : α → α → Int) : Prop where
  eq_zero_iff : ∀ a b, cmp a b = 0 ↔ a = b
  swap : ∀ a b, cmp b a = -cmp a b
  trans : ∀ a b c, cmp a b ≤ 0 → cmp b c ≤ 0 → cmp a c ≤ 0
  total : ∀ a b, cmp a b ≤ 0 ∨ cmp b a ≤ 0

theorem TotalOrder.of_rank {cmp : α → α → Int} (injective : Function.Injective rank)
    (swap : ∀ a b, cmp b a = -cmp a b) (lt_iff : ∀ a b, cmp a b < 0 ↔ rank a < rank b) :
    TotalOrder cmp := by
  have le_iff : ∀ a b, cmp a b ≤ 0 ↔ rank a ≤ rank b := by
    intro a b
    rw [← not_lt (a := rank b), ← lt_iff, swap a b]
    omega
  refine ⟨fun a b => ?_, swap, fun a b c => ?_, fun a b => ?_⟩
  · have same : cmp a b = 0 ↔ cmp a b ≤ 0 ∧ cmp b a ≤ 0 := by
      rw [swap a b]
      omega
    rw [same, le_iff, le_iff, ← le_antisymm_iff, injective.eq_iff]
  · simp only [le_iff]
    exact le_trans
  · simp only [le_iff]
    exact le_total _ _

namespace InPlaceSort

variable {n : Nat}

section Loops

variable (less : α → α → Bool)

/-- The inner loop, at index `j`. -/
def sift (g : Vector α n) : (j : Nat) → j < n → Vector α n
  | 0, _ => g
  | j + 1, inside =>
    if less g[j + 1] g[j] then sift (g.swap j (j + 1)) j (Nat.lt_of_succ_lt inside) else g

/-- The outer loop up to index `i`. At index 0 the inner loop makes no turn. -/
def turns (g : Vector α n) : (i : Nat) → i ≤ n → Vector α n
  | 0, _ => g
  | i + 1, inside => sift less (turns g i (Nat.le_of_succ_le inside)) i inside

def sort (r : List α) : List α :=
  (turns less ⟨r.toArray, rfl⟩ r.toArray.size le_rfl).toList

end Loops

section Permutation

variable {less : α → α → Bool}

variable {g : Vector α n}

theorem perm_sift {j : Nat} (inside : j < n) : (sift less g j inside).Perm g := by
  induction j generalizing g with
  | zero => exact .rfl
  | succ j ih =>
    rw [sift]
    split
    · exact (ih _).trans (Vector.swap_perm _ _)
    · exact .rfl

theorem perm_turns {i : Nat} (inside : i ≤ n) :
    (turns less g i inside).Perm g := by
  induction i with
  | zero => exact .rfl
  | succ i ih => exact (perm_sift inside).trans (ih _)

theorem perm_sort (r : List α) : (sort less r).Perm r := (perm_turns _).toList

end Permutation

section Order

variable {less : α → α → Bool}

/-- Below index `i` the slice is in order, but for the element at index `j` against those before
it. At `j = 0` there is none before it, and the order is complete. -/
def AscendingBut (rank : α → β) (g : Vector α n) (i j : Nat) : Prop :=
  ∀ p q (_ : p < q) (_ : q < n), q < i → q ≠ j → rank g[p] ≤ rank g[q]

theorem AscendingBut.swap {g : Vector α n} {i j : Nat} (ascending : AscendingBut rank g i (j + 1))
    (inside : j + 1 < n) (less : rank g[j + 1] < rank g[j]) :
    AscendingBut rank (g.swap j (j + 1)) i j := by
  intro p q before bound below other
  by_cases upper : q = j + 1
  · subst upper
    rw [Vector.getElem_swap_right]
    by_cases lower : p = j
    · subst lower
      rw [Vector.getElem_swap_left]
      exact le_of_lt less
    · rw [Vector.getElem_swap_of_ne lower (by omega)]
      exact ascending p j (by omega) (by omega) (by omega) (by omega)
  · rw [Vector.getElem_swap_of_ne other upper, Vector.getElem_swap]
    split
    · exact ascending (j + 1) q (by omega) bound below upper
    · split
      · exact ascending j q (by omega) bound below upper
      · exact ascending p q before bound below upper

section

variable (ranks : ∀ a b, less a b = true ↔ rank a < rank b)
include ranks

variable {g : Vector α n} {i : Nat}

theorem AscendingBut.sift {j : Nat} (ascending : AscendingBut rank g i j) (inside : j < n) :
    AscendingBut rank (sift less g j inside) i 0 := by
  induction j generalizing g with
  | zero => exact ascending
  | succ j ih =>
    rw [InPlaceSort.sift]
    split
    case isTrue lower => exact ih (ascending.swap inside ((ranks _ _).mp lower)) _
    case isFalse stop =>
      -- the element that was left out is not less than the one before it, and so than any before
      have last : rank g[j] ≤ rank g[j + 1] := not_lt.mp fun lower => stop ((ranks _ _).mpr lower)
      intro p q before bound below _
      by_cases upper : q = j + 1
      · subst upper
        rcases Nat.lt_succ_iff_lt_or_eq.mp before with before | rfl
        · exact le_trans (ascending p j before _ (by omega) (by omega)) last
        · exact last
      · exact ascending p q before bound below upper

theorem ascending_turns (inside : i ≤ n) :
    AscendingBut rank (turns less g i inside) i 0 := by
  induction i with
  | zero => exact fun p q _ _ below => absurd below (Nat.not_lt_zero q)
  | succ i ih =>
    refine AscendingBut.sift ranks (fun p q before bound below other => ?_) inside
    exact ih _ p q before bound (by omega) (by omega)

theorem pairwise_sort (r : List α) : (sort less r).Pairwise fun a b => rank a ≤ rank b := by
  refine List.pairwise_iff_getElem.mpr fun p q _ second before => ?_
  rw [sort, Vector.length_toList] at second
  exact ascending_turns ranks le_rfl p q before second second (by omega)

end

end Order

end InPlaceSort

end Shale
