import Mathlib.Data.Nat.Bitwise
import Mathlib.Data.Finset.Basic

/-!
# Storage units

Unit counts, the map from shard hashes to units, and the doubling arithmetic of
`pkg/storageunit`: a unit count is a power of two, a hash's unit is its low bits, and
doubling the count sends every unit `k` to its two children `k` and `k + n`. Unit ids
stay below `2 ^ 30` and generations only count up, so both are natural numbers here.
-/

namespace Shale

abbrev ShardHash := UInt64

def minUnitCount : Nat := 1

def maxUnitCount : Nat := 1 <<< 30

def onesCount32 (n : Nat) : Nat :=
  ((List.range 32).filter n.testBit).length

/-- A validated unit count: the checks of `NewUnitCount` are its fields, so that the
mask of `unitForHash` always selects low bits. -/
structure UnitCount where
  n : Nat
  min_le : minUnitCount ≤ n
  le_max : n ≤ maxUnitCount
  onesCount : onesCount32 n = 1
deriving DecidableEq

namespace UnitCount

variable {c : UnitCount}

theorem ext {c' : UnitCount} (same : c.n = c'.n) : c = c' := by
  cases c
  cases c'
  simpa using same

def one : UnitCount := ⟨1, by decide, by decide, by decide⟩

def two : UnitCount := ⟨2, by decide, by decide, by decide⟩

private theorem eq_two_pow_of_onesCount {n : Nat} (bounded : n < 2 ^ 32)
    (single : onesCount32 n = 1) : ∃ bit, n = 2 ^ bit := by
  obtain ⟨bit, onlyBit⟩ := List.length_eq_one_iff.mp single
  refine ⟨bit, Nat.eq_of_testBit_eq fun index => ?_⟩
  rw [Nat.testBit_two_pow]
  have same : ∀ i, (i < 32 ∧ n.testBit i = true) ↔ i = bit := by
    intro i
    simpa using congrArg (i ∈ ·) onlyBit
  by_cases low : index < 32
  · have := same index
    simp only [low, true_and] at this
    by_cases hit : bit = index
    · simp [hit, this.mpr hit.symm]
    · simpa [hit] using fun set => hit (this.mp set).symm
  · have high : n < 2 ^ index :=
      bounded.trans_le (Nat.pow_le_pow_right (by omega) (by omega))
    have apart : bit ≠ index := by
      have := (same bit).mpr rfl
      omega
    rw [Nat.testBit_lt_two_pow high]
    simp [apart]

theorem pos (c : UnitCount) : 0 < c.n := c.min_le

theorem lt_two_pow (c : UnitCount) : c.n < 2 ^ 32 :=
  c.le_max.trans_lt (by decide)

theorem eq_two_pow (c : UnitCount) : ∃ bit, c.n = 2 ^ bit :=
  eq_two_pow_of_onesCount c.lt_two_pow c.onesCount

def new (n : Int) : Except String UnitCount :=
  if n < minUnitCount then
    .error s!"storageunit: unit count {n} is below minimum {minUnitCount}"
  else if n > maxUnitCount then
    .error s!"storageunit: unit count {n} exceeds maximum {maxUnitCount}"
  else if valid : minUnitCount ≤ n.toNat ∧ n.toNat ≤ maxUnitCount ∧
      onesCount32 n.toNat = 1 then
    .ok ⟨n.toNat, valid.1, valid.2.1, valid.2.2⟩
  else
    .error s!"storageunit: unit count {n} is not a power of two"

def contains (c : UnitCount) (u : Nat) : Bool := decide (u < c.n)

def double (c : UnitCount) : Except String UnitCount := new (c.n * 2)

def halve (c : UnitCount) : Except String UnitCount :=
  if c.n ≤ minUnitCount then
    .error s!"storageunit: N={c.n} cannot be halved (already at minimum N={minUnitCount})"
  else new (c.n / 2)

theorem new_n (c : UnitCount) : new c.n = .ok c := by
  have low : ¬ ((c.n : Int) < minUnitCount) := by
    have := c.min_le
    omega
  have high : ¬ ((c.n : Int) > maxUnitCount) := by
    have := c.le_max
    omega
  simp [new, low, high, c.min_le, c.le_max, c.onesCount]

theorem n_of_new {n : Int} (made : new n = .ok c) : (c.n : Int) = n := by
  unfold new at made
  split at made
  · cases made
  · split at made
    · cases made
    · split at made
      · cases made
        change ((n.toNat : Nat) : Int) = n
        omega
      · cases made

theorem n_of_double {next : UnitCount} (doubled : c.double = .ok next) : next.n = 2 * c.n := by
  have := n_of_new doubled
  omega

theorem n_of_halve {next : UnitCount} (halved : c.halve = .ok next) : c.n = 2 * next.n := by
  unfold halve at halved
  split at halved
  · cases halved
  case isFalse large =>
    have half := n_of_new halved
    obtain ⟨bit, power⟩ := c.eq_two_pow
    have two_le : 2 ≤ c.n := by
      change ¬ c.n ≤ 1 at large
      omega
    obtain _ | bit := bit
    · omega
    · rw [Nat.pow_succ] at power
      omega

end UnitCount

def unitForHash (h : ShardHash) (c : UnitCount) : Nat :=
  h.toNat &&& (c.n - 1)

theorem unitForHash_eq_mod (h : ShardHash) (c : UnitCount) : unitForHash h c = h.toNat % c.n := by
  obtain ⟨bit, power⟩ := c.eq_two_pow
  rw [unitForHash, power, Nat.and_two_pow_sub_one_eq_mod]

theorem unitForHash_lt (h : ShardHash) (c : UnitCount) : unitForHash h c < c.n := by
  rw [unitForHash_eq_mod]
  exact Nat.mod_lt _ c.pos

variable {c next : UnitCount}

theorem unitForHash_mod_of_double (twice : next.n = 2 * c.n) (h : ShardHash) :
    unitForHash h next % c.n = unitForHash h c := by
  rw [unitForHash_eq_mod, unitForHash_eq_mod, twice]
  exact Nat.mod_mod_of_dvd _ (Nat.dvd_mul_left ..)

def childUnits (k : Nat) (old : UnitCount) : Except String (Nat × Nat) :=
  if !old.contains k then
    .error s!"storageunit: unit {k} is out of range for N={old.n}"
  else
    match old.double with
    | .error err => .error err
    | .ok _ => .ok (k, k + old.n)

def parentUnit (c : Nat) (cur : UnitCount) : Except String Nat :=
  if !cur.contains c then
    .error s!"storageunit: unit {c} is out of range for N={cur.n}"
  else if cur.n ≤ minUnitCount then
    .error s!"storageunit: N={cur.n} cannot be halved"
  else .ok (c % (cur.n / 2))

theorem parentUnit_of_double (twice : next.n = 2 * c.n) {u : Nat} (below : u < next.n) :
    parentUnit u next = .ok (u % c.n) := by
  have large : ¬ next.n ≤ minUnitCount := by
    have : minUnitCount = 1 := rfl
    omega
  have half : next.n / 2 = c.n := by omega
  simp [parentUnit, UnitCount.contains, below, large, half]

theorem unitForHash_double_mem_childUnits (twice : next.n = 2 * c.n) (h : ShardHash) :
    unitForHash h next = unitForHash h c ∨ unitForHash h next = unitForHash h c + c.n := by
  have low := unitForHash_mod_of_double twice h
  have below := unitForHash_lt h next
  by_cases small : unitForHash h next < c.n
  · left
    rw [← low, Nat.mod_eq_of_lt small]
  · right
    rw [← low, Nat.mod_eq_sub_mod (by omega), Nat.mod_eq_of_lt (by omega)]
    omega

end Shale
