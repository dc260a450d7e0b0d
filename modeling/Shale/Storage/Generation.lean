import Mathlib.Data.Finset.Card
import Shale.Storage.Units

/-!
# Generation-qualified units and the routing state

`GenState` is the routing value of `multibackend_reshard.go`: the live generation, its
unit count, the count a reshard in flight moves to, and the old units that have already
cut over. `GenState.resolveGenUnit` is the one routing decision; the lemmas below say
which commits of the routing state move a key and which do not.
-/

namespace Shale

structure GenUnit where
  gen : Nat
  id : Nat
deriving DecidableEq, Repr

structure ReplicaUnit where
  unit : GenUnit
  replica : UInt8
deriving DecidableEq, Repr

structure GenState where
  gen : Nat
  count : UnitCount
  nextCount : Option UnitCount
  cutOver : Finset Nat
deriving DecidableEq

/-- How many passes a driver's tick makes over a slot before it leaves the rest to the next. -/
def copyMaxPasses : Nat := 8

namespace GenState

def steady (gen : Nat) (count : UnitCount) : GenState :=
  { gen, count, nextCount := none, cutOver := ∅ }

def hasCutOver (gs : GenState) (u : Nat) : Bool := decide (u ∈ gs.cutOver)

def nextUnitForHash (gs : GenState) (h : ShardHash) : Nat :=
  match gs.nextCount with
  | some next => unitForHash h next
  | none => h.toNat % 2 ^ 32

def resolveGenUnit (gs : GenState) (h : ShardHash) : GenUnit :=
  if gs.hasCutOver (unitForHash h gs.count) then
    { gen := gs.gen + 1, id := gs.nextUnitForHash h }
  else
    { gen := gs.gen, id := unitForHash h gs.count }

def enter (gs : GenState) (next : UnitCount) : GenState :=
  { gs with nextCount := some next }

def cutOverUnit (gs : GenState) (k : Nat) : GenState :=
  { gs with cutOver := insert k gs.cutOver }

def advance (gs : GenState) (next : UnitCount) : GenState :=
  steady (gs.gen + 1) next

def allCutOver (gs : GenState) : Bool :=
  gs.nextCount.isSome && gs.cutOver.card == gs.count.n

variable {gs : GenState} {h : ShardHash} {k : Nat} {next : UnitCount}

theorem hasCutOver_iff : gs.hasCutOver k = true ↔ k ∈ gs.cutOver := by
  simp [hasCutOver]

theorem mem_cutOver_of_allCutOver (all : gs.allCutOver = true)
    (units : ∀ u ∈ gs.cutOver, u < gs.count.n) (below : k < gs.count.n) : k ∈ gs.cutOver := by
  simp only [allCutOver, Bool.and_eq_true, beq_iff_eq] at all
  have inside : gs.cutOver ⊆ Finset.range gs.count.n :=
    fun u member => Finset.mem_range.mpr (units u member)
  rw [Finset.eq_of_subset_of_card_le inside (by simp [all.2])]
  exact Finset.mem_range.mpr below

theorem resolveGenUnit_old (stays : unitForHash h gs.count ∉ gs.cutOver) :
    gs.resolveGenUnit h = ⟨gs.gen, unitForHash h gs.count⟩ := by
  simp [resolveGenUnit, hasCutOver, stays]

theorem resolveGenUnit_next (moved : unitForHash h gs.count ∈ gs.cutOver)
    (entered : gs.nextCount = some next) :
    gs.resolveGenUnit h = ⟨gs.gen + 1, unitForHash h next⟩ := by
  simp [resolveGenUnit, hasCutOver, moved, nextUnitForHash, entered]

@[simp] theorem resolveGenUnit_steady (gen : Nat) (count : UnitCount) :
    (steady gen count).resolveGenUnit h = { gen, id := unitForHash h count } := by
  simp [resolveGenUnit, hasCutOver, steady]

theorem resolveGenUnit_enter (fresh : gs.cutOver = ∅) :
    (gs.enter next).resolveGenUnit h = gs.resolveGenUnit h := by
  simp [resolveGenUnit, hasCutOver, enter, fresh]

theorem resolveGenUnit_cutOverUnit_of_ne (other : unitForHash h gs.count ≠ k) :
    (gs.cutOverUnit k).resolveGenUnit h = gs.resolveGenUnit h := by
  simp [resolveGenUnit, hasCutOver, cutOverUnit, nextUnitForHash, other]

theorem resolveGenUnit_advance (moved : unitForHash h gs.count ∈ gs.cutOver)
    (entered : gs.nextCount = some next) :
    (gs.advance next).resolveGenUnit h = gs.resolveGenUnit h := by
  rw [resolveGenUnit_next moved entered, advance, resolveGenUnit_steady]

end GenState

end Shale
