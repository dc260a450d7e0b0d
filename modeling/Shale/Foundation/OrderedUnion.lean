import Mathlib.Data.List.Nodup
import Mathlib.Data.List.Perm.Subperm

/-!
# Ordered unions of lists

A union that keeps the first list as it stands and appends, in order, whatever the second one
adds to it. Entries are compared as a whole, or by a key that they carry: the keys of the keyed
union are the union of the keys.
-/

namespace Shale.OrderedUnion

open List

section Whole

variable {α : Type*} [BEq α] [LawfulBEq α] {out more : List α} {a : α}

omit [LawfulBEq α] in
def appendNew (out more : List α) : List α :=
  more.foldl (fun out a => if out.contains a then out else out ++ [a]) out

omit [LawfulBEq α] in
@[simp] theorem appendNew_nil : appendNew out [] = out := rfl

omit [LawfulBEq α] in
theorem appendNew_cons :
    appendNew out (a :: more) = appendNew (if out.contains a then out else out ++ [a]) more := rfl

theorem mem_appendNew : a ∈ appendNew out more ↔ a ∈ out ∨ a ∈ more := by
  induction more generalizing out with
  | nil => simp
  | cons first rest ih =>
    rw [appendNew_cons, ih]
    by_cases present : out.contains first = true
    · have known : first ∈ out := contains_iff_mem.mp present
      simp only [present, ↓reduceIte, mem_cons]
      constructor
      · rintro (old | new)
        · exact .inl old
        · exact .inr (.inr new)
      · rintro (old | rfl | new)
        · exact .inl old
        · exact .inl known
        · exact .inr new
    · simp only [present, Bool.false_eq_true, ↓reduceIte, mem_append, mem_cons]
      tauto

omit [LawfulBEq α] in
theorem prefix_appendNew (out more : List α) : out <+: appendNew out more := by
  induction more generalizing out with
  | nil => exact prefix_refl out
  | cons first rest ih =>
    rw [appendNew_cons]
    split
    · exact ih out
    · exact (prefix_append out [first]).trans (ih _)

theorem nodup_appendNew (distinct : out.Nodup) : (appendNew out more).Nodup := by
  induction more generalizing out with
  | nil => exact distinct
  | cons first rest ih =>
    rw [appendNew_cons]
    split
    · exact ih distinct
    case isFalse absent =>
      refine ih (nodup_append.mpr ⟨distinct, nodup_singleton first, ?_⟩)
      rintro a mem other single rfl
      rw [mem_singleton] at single
      subst single
      exact absent (contains_iff_mem.mpr mem)

end Whole

section Keyed

variable {α κ : Type*} [BEq κ] (key : α → κ)

def appendNewBy (out more : List α) : List α :=
  more.foldl (fun out a => if out.any fun b => key b == key a then out else out ++ [a]) out

theorem map_appendNewBy [LawfulBEq κ] (out more : List α) :
    (appendNewBy key out more).map key = appendNew (out.map key) (more.map key) := by
  induction more generalizing out with
  | nil => rfl
  | cons first rest ih =>
    have same : (out.map key).contains (key first) = out.any fun b => key b == key first := by
      rw [Bool.eq_iff_iff, contains_iff_mem]
      simp
    rw [map_cons, appendNew_cons, same]
    change (appendNewBy key (if _ then out else out ++ [first]) rest).map key = _
    rw [ih]
    split
    · rfl
    · rw [map_append]
      rfl

theorem mem_appendNewBy [LawfulBEq κ] {out more : List α} (distinct : (more.map key).Nodup)
    {a : α} : a ∈ appendNewBy key out more ↔ a ∈ out ∨ a ∈ more ∧ key a ∉ out.map key := by
  induction more generalizing out with
  | nil => simp [appendNewBy]
  | cons first rest ih =>
    obtain ⟨apart, distinct⟩ := nodup_cons.mp distinct
    change a ∈ appendNewBy key (if _ then out else out ++ [first]) rest ↔ _
    rw [ih distinct]
    have present : (out.any fun b => key b == key first) = true ↔ key first ∈ out.map key := by
      simp
    by_cases known : key first ∈ out.map key
    · rw [if_pos (present.mpr known), mem_cons]
      grind
    · rw [if_neg (mt present.mp known), mem_cons]
      grind

end Keyed

theorem mem_iff_of_length_eq {α : Type*} {left right : List α} (distinct : left.Nodup)
    (lengths : left.length = right.length) (included : ∀ a ∈ left, a ∈ right) (a : α) :
    a ∈ left ↔ a ∈ right := by
  have perm :=
    (subperm_of_subset distinct included).perm_of_length_le (Nat.le_of_eq lengths.symm)
  exact perm.mem_iff

end Shale.OrderedUnion
