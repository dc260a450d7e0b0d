import Mathlib.Data.Set.Finite.Basic
import Shale.Foundation.Sorting
import Shale.Handoff.Table
import Shale.Scan.LocalSnapshot
import Shale.Slate.DbName

/-!
# The order of mounts

`CompareMountRefs` of `mountref.go` orders the refs of mounts, `sortGenUnits` and
`sortReplicaUnits` of `multibackend.go` sort slices in place, and `mountedPairs` of
`mounttable.go` lists what a node has mounted. Ranging over the map of mounts yields each position
once, in any order.
-/

namespace Shale.MountOrder

open Handoff Slate

def cmpUint64 (a b : Nat) : Int :=
  if a < b then -1 else if b < a then 1 else 0

def compareMountRefs (a b : MountRef) : Int :=
  if a.ru.unit.gen ≠ b.ru.unit.gen then cmpUint64 a.ru.unit.gen b.ru.unit.gen
  else if a.ru.unit.id ≠ b.ru.unit.id then cmpUint64 a.ru.unit.id b.ru.unit.id
  else if a.ru.replica ≠ b.ru.replica then cmpUint64 a.ru.replica.toNat b.ru.replica.toNat
  else if a.replicated ≠ b.replicated then if !a.replicated then -1 else 1
  else 0

theorem cmpUint64_swap (a b : Nat) : cmpUint64 b a = -cmpUint64 a b := by
  unfold cmpUint64
  repeat' split
  all_goals omega

theorem cmpUint64_neg_iff {a b : Nat} : cmpUint64 a b < 0 ↔ a < b := by
  unfold cmpUint64
  repeat' split
  all_goals omega

theorem compareMountRefs_swap (a b : MountRef) : compareMountRefs b a = -compareMountRefs a b := by
  unfold compareMountRefs
  simp only [ne_comm (b := b.ru.unit.gen), ne_comm (b := b.ru.unit.id),
    ne_comm (b := b.ru.replica), ne_comm (b := b.replicated)]
  split
  · exact cmpUint64_swap _ _
  split
  · exact cmpUint64_swap _ _
  split
  · exact cmpUint64_swap _ _
  split
  case isTrue other => cases left : a.replicated <;> cases right : b.replicated <;> simp_all
  case isFalse => rfl

theorem compareMountRefs_neg_iff {a b : MountRef} :
    compareMountRefs a b < 0 ↔
      replicaUnitLess a.ru b.ru = true ∨ a.ru = b.ru ∧ a.replicated < b.replicated := by
  obtain ⟨⟨⟨gen, id⟩, replica⟩, replicated, -, -, -⟩ := a
  obtain ⟨⟨⟨gen', id'⟩, replica'⟩, replicated', -, -, -⟩ := b
  unfold compareMountRefs replicaUnitLess genUnitLess
  by_cases gens : gen = gen'
  · by_cases ids : id = id'
    · by_cases replicas : replica = replica'
      · cases replicated <;> cases replicated' <;> simp [gens, ids, replicas]
      · simp [gens, ids, replicas, cmpUint64_neg_iff, UInt8.lt_iff_toNat_lt]
    · simp [gens, ids, cmpUint64_neg_iff]
  · simp [gens, cmpUint64_neg_iff]

/-- Generation, unit, position, and the sole mount before the replicated one. -/
def mountRank (ref : MountRef) : (Nat ×ₗ Nat ×ₗ Nat) ×ₗ Bool := toLex (ref.ru.rank, ref.replicated)

theorem mountRank_injective : Function.Injective mountRank := by
  intro a b same
  obtain ⟨units, layouts⟩ := Prod.mk.inj (toLex.injective same)
  cases a
  cases b
  cases ReplicaUnit.rank_injective units
  cases layouts
  rfl

theorem totalOrder_compareMountRefs : TotalOrder compareMountRefs := by
  refine TotalOrder.of_rank mountRank_injective compareMountRefs_swap fun a b => ?_
  rw [compareMountRefs_neg_iff, mountRank, mountRank, Prod.Lex.toLex_lt_toLex,
    replicaUnitLess_iff, ReplicaUnit.rank_injective.eq_iff]

def unitRank (gu : GenUnit) : Nat ×ₗ Nat := toLex (gu.gen, gu.id)

theorem genUnitLess_iff (a b : GenUnit) : genUnitLess a b = true ↔ unitRank a < unitRank b := by
  rw [unitRank, unitRank, Prod.Lex.toLex_lt_toLex]
  unfold genUnitLess
  by_cases gens : a.gen = b.gen <;> simp [gens]

def sortGenUnits (g : List GenUnit) : List GenUnit := InPlaceSort.sort genUnitLess g

theorem sortReplicaUnits_unique {r sorted : List ReplicaUnit} (perm : r.Perm sorted)
    (ascending : sorted.Pairwise fun a b => a.rank ≤ b.rank) : sortReplicaUnits r = sorted := by
  refine ((perm_sortReplicaUnits r).trans perm).eq_of_pairwise ?_ (pairwise_sortReplicaUnits r)
    ascending
  exact fun _ _ _ _ below above => ReplicaUnit.rank_injective (le_antisymm below above)

section MountedPairs

variable {β : Type} {t : Table β} {order : List ReplicaUnit}

/-- `order` is what ranging over the map of mounts yields. -/
structure Ranges (t : Table β) (order : List ReplicaUnit) : Prop where
  once : order.Nodup
  mounted : ∀ ru, ru ∈ order ↔ (t.entry ru).mount.isSome

def mountedPairs (t : Table β) (order : List ReplicaUnit) : List (ReplicaUnit × Option β) :=
  (sortReplicaUnits order).map fun ru => (ru, (t.entry ru).mount.join)

theorem positions_mountedPairs : (mountedPairs t order).map Prod.fst = sortReplicaUnits order := by
  rw [mountedPairs, List.map_map]
  exact List.map_id _

theorem Ranges.mem_mountedPairs (ranges : Ranges t order) {ru : ReplicaUnit} {b : Option β} :
    (ru, b) ∈ mountedPairs t order ↔ (t.entry ru).mount = some b := by
  have listed := (perm_sortReplicaUnits order).mem_iff.trans (ranges.mounted ru)
  simp only [mountedPairs, List.mem_map, Prod.mk.injEq]
  constructor
  · rintro ⟨_, mem, rfl, rfl⟩
    obtain ⟨held, mounted⟩ := Option.isSome_iff_exists.mp (listed.mp mem)
    rw [mounted, Option.join_some]
  · intro held
    exact ⟨ru, listed.mpr (by simp [held]), rfl, by simp [held]⟩

theorem Ranges.ascending (ranges : Ranges t order) :
    (sortReplicaUnits order).Pairwise fun a b => a.rank < b.rank := by
  have distinct := (perm_sortReplicaUnits order).nodup_iff.mpr ranges.once
  refine ((pairwise_sortReplicaUnits order).and distinct).imp fun ⟨below, apart⟩ => ?_
  exact below.lt_of_ne fun same => apart (ReplicaUnit.rank_injective same)

theorem Ranges.mountedPairs_eq {order' : List ReplicaUnit} (ranges : Ranges t order)
    (ranges' : Ranges t order') : mountedPairs t order = mountedPairs t order' := by
  have perm := (List.perm_ext_iff_of_nodup ranges.once ranges'.once).mpr
    fun ru => (ranges.mounted ru).trans (ranges'.mounted ru).symm
  have sorted := sortReplicaUnits_unique (perm.trans (perm_sortReplicaUnits order').symm)
      (pairwise_sortReplicaUnits order')
  rw [mountedPairs, mountedPairs, sorted]

end MountedPairs

/-- **Mounts are totally ordered, and what sorts them sorts.** So `mountedPairs` lists every
mounted position once, ascending by generation, unit and position, whatever order the map is ranged
over in. -/
theorem mounts_totally_ordered :
    TotalOrder compareMountRefs ∧
    (∀ a b : MountRef, a.replicated = b.replicated →
      (compareMountRefs a b < 0 ↔ replicaUnitLess a.ru b.ru = true)) ∧
    (∀ r, (sortReplicaUnits r).Perm r ∧
      (sortReplicaUnits r).Pairwise fun a b => a.rank ≤ b.rank) ∧
    (∀ g, (sortGenUnits g).Perm g ∧
      (sortGenUnits g).Pairwise fun a b => unitRank a ≤ unitRank b) ∧
    ∀ {β : Type} (t : Table β) (order : List ReplicaUnit), Ranges t order →
      (∀ ru b, (ru, b) ∈ mountedPairs t order ↔ (t.entry ru).mount = some b) ∧
      ((mountedPairs t order).map Prod.fst).Pairwise (fun a b => a.rank < b.rank) ∧
      ∀ order', Ranges t order' → mountedPairs t order' = mountedPairs t order := by
  refine ⟨totalOrder_compareMountRefs, fun a b layouts => ?_, fun r => ?_, fun g => ?_,
    fun t order ranges => ⟨fun ru b => ranges.mem_mountedPairs, ?_, fun order' ranges' => ?_⟩⟩
  · simp [compareMountRefs_neg_iff, layouts]
  · exact ⟨perm_sortReplicaUnits r, pairwise_sortReplicaUnits r⟩
  · exact ⟨InPlaceSort.perm_sort g, InPlaceSort.pairwise_sort genUnitLess_iff g⟩
  · rw [positions_mountedPairs]
    exact ranges.ascending
  · exact ranges'.mountedPairs_eq ranges

end Shale.MountOrder
