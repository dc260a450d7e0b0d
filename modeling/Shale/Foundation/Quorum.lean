import Mathlib.Data.Finset.Card

/-!
# Counting distinct entries

A quorum is counted over indices of a list, and means something for the distinct entries
at those indices. The two counts agree for every choice of indices exactly when the list
repeats no entry: `card_entriesAt` and `exists_entriesAt_card_lt`.
-/

namespace Shale

variable {α : Type} {entries : List α} {indices : List Nat}

def entriesAt (entries : List α) (indices : List Nat) : List α :=
  indices.filterMap fun i => entries[i]?

theorem mem_entriesAt {entry : α} :
    entry ∈ entriesAt entries indices ↔ ∃ i ∈ indices, entries[i]? = some entry := by
  simp [entriesAt]

theorem length_entriesAt (inRange : ∀ i ∈ indices, i < entries.length) :
    (entriesAt entries indices).length = indices.length := by
  induction indices with
  | nil => rfl
  | cons first rest ih =>
    have below := inRange first (by simp)
    have later := ih fun i member => inRange i (by simp [member])
    simp only [entriesAt, List.filterMap_cons, List.getElem?_eq_getElem below,
      List.length_cons] at later ⊢
    rw [later]

theorem nodup_entriesAt (distinct : entries.Nodup) (different : indices.Nodup) :
    (entriesAt entries indices).Nodup := by
  refine different.filterMap ?_
  intro i j entry left right
  have below := (List.getElem?_eq_some_iff.mp left).1
  exact (List.getElem?_inj below distinct).mp (left.trans right.symm)

theorem length_le_of_nodup {bound : Nat} (different : indices.Nodup)
    (inRange : ∀ i ∈ indices, i < bound) : indices.length ≤ bound := by
  have inside : indices ⊆ List.range bound :=
    fun i member => List.mem_range.mpr (inRange i member)
  simpa using (List.subperm_of_subset different inside).length_le

theorem exists_mem_of_lt {bound : Nat} {others : List Nat} (different : indices.Nodup)
    (different' : others.Nodup) (inRange : ∀ i ∈ indices, i < bound)
    (inRange' : ∀ i ∈ others, i < bound) (many : bound < indices.length + others.length) :
    ∃ i ∈ indices, i ∈ others := by
  by_contra apart
  simp only [not_exists, not_and] at apart
  have together := different.append different' apart
  have few : (indices ++ others).length ≤ bound := length_le_of_nodup together fun i member =>
    (List.mem_append.mp member).elim (inRange i) (inRange' i)
  rw [List.length_append] at few
  omega

theorem exists_entriesAt_card_lt [DecidableEq α] (repeats : ¬ entries.Nodup) {size : Nat}
    (two_le : 2 ≤ size) (le_length : size ≤ entries.length) :
    ∃ indices : List Nat, indices.Nodup ∧ indices.length = size ∧
      (∀ i ∈ indices, i < entries.length) ∧ (entriesAt entries indices).toFinset.card < size := by
  obtain ⟨i, j, ordered, below, same⟩ : ∃ i j, i < j ∧ j < entries.length ∧
      entries[i]? = entries[j]? := by
    simpa [List.nodup_iff_getElem?_ne_getElem?] using repeats
  have pair : ({i, j} : Finset Nat) ⊆ Finset.range entries.length := by
    intro k member
    simp only [Finset.mem_insert, Finset.mem_singleton] at member
    rw [Finset.mem_range]
    omega
  obtain ⟨chosen, contains, inside, card⟩ :=
    Finset.exists_subsuperset_card_eq pair (Finset.card_le_two.trans two_le)
      (by simpa using le_length)
  have inRange : ∀ k ∈ chosen.toList, k < entries.length := by
    intro k member
    exact Finset.mem_range.mp (inside (Finset.mem_toList.mp member))
  refine ⟨chosen.toList, chosen.nodup_toList, by simpa using card, inRange, ?_⟩
  -- dropping `j` loses no entry, because `i` gives the same one
  have image : (entriesAt entries chosen.toList).toFinset ⊆
      (entriesAt entries (chosen.erase j).toList).toFinset := by
    intro entry member
    simp only [List.mem_toFinset, mem_entriesAt, Finset.mem_toList] at member ⊢
    obtain ⟨k, present, found⟩ := member
    by_cases last : k = j
    · refine ⟨i, Finset.mem_erase.mpr ⟨by omega, contains (by simp)⟩, ?_⟩
      rw [same, ← last, found]
    · exact ⟨k, Finset.mem_erase.mpr ⟨last, present⟩, found⟩
  have listed : j ∈ chosen := contains (by simp)
  calc (entriesAt entries chosen.toList).toFinset.card
      ≤ (entriesAt entries (chosen.erase j).toList).toFinset.card := Finset.card_le_card image
    _ ≤ (entriesAt entries (chosen.erase j).toList).length := List.toFinset_card_le _
    _ ≤ (chosen.erase j).toList.length := List.length_filterMap_le _ _
    _ = size - 1 := by rw [Finset.length_toList, Finset.card_erase_of_mem listed, card]
    _ < size := by omega

end Shale
