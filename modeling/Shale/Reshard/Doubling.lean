import Shale.Reshard.ParentAnchored

/-!
# Doubling and the routing of a reshard in flight

`doubling.go` states why the units of a doubled count can be resolved by the direct map: the unit
of a hash under `2 N` is its unit under `N`, plus `N` if the next bit of the hash is set. The
routing state of a reshard in flight resolves every hash by one of the two maps, and at one
replica ownership is anchored at the old unit for as long as a split lasts.
-/

namespace Shale

def trailingZeros32 (n : Nat) : Nat := ((List.range 32).find? n.testBit).getD 32

def splitBitIndex (c : UnitCount) : Nat := trailingZeros32 c.n

def childUnit (h : ShardHash) (old : UnitCount) : Except String Nat :=
  match old.double with
  | .error err => .error err
  | .ok _ =>
    let parent := unitForHash h old
    let bit := (h.toNat >>> splitBitIndex old) &&& 1
    .ok ((parent + bit * old.n % 2 ^ 32) % 2 ^ 32)

theorem trailingZeros32_two_pow {bit : Nat} (bounded : bit < 32) :
    trailingZeros32 (2 ^ bit) = bit := by
  have found : (List.range 32).find? (2 ^ bit).testBit = some bit := by
    rw [List.find?_range_eq_some]
    refine ⟨by simp, List.mem_range.mpr bounded, ?_⟩
    intro lower below
    have apart : bit ≠ lower := by omega
    simp [apart]
  rw [trailingZeros32, found, Option.getD_some]

theorem two_pow_splitBitIndex (c : UnitCount) : 2 ^ splitBitIndex c = c.n := by
  obtain ⟨bit, power⟩ := c.eq_two_pow
  have bounded : bit < 32 := by
    have := c.lt_two_pow
    rw [power] at this
    exact (Nat.pow_lt_pow_iff_right (by omega)).mp this
  rw [splitBitIndex, power, trailingZeros32_two_pow bounded]

variable {old next : UnitCount}

theorem unitForHash_double (twice : next.n = 2 * old.n) (h : ShardHash) :
    unitForHash h next = unitForHash h old + ((h.toNat >>> splitBitIndex old) &&& 1) * old.n := by
  have bits := @Nat.mod_pow_succ h.toNat 2 (splitBitIndex old)
  rw [Nat.pow_succ, two_pow_splitBitIndex, Nat.mul_comm old.n 2] at bits
  rw [unitForHash_eq_mod, unitForHash_eq_mod, twice, bits, Nat.and_one_is_mod,
    Nat.shiftRight_eq_div_pow, two_pow_splitBitIndex, Nat.mul_comm old.n]

theorem childUnit_eq (doubled : old.double = .ok next) (h : ShardHash) :
    childUnit h old = .ok (unitForHash h next) := by
  have direct := unitForHash_double (UnitCount.n_of_double doubled) h
  have below := (unitForHash_lt h next).trans next.lt_two_pow
  simp only [childUnit, doubled]
  rw [Nat.mod_eq_of_lt (a := _ * _) (by omega), ← direct, Nat.mod_eq_of_lt below]

theorem childUnits_eq (doubled : old.double = .ok next) {k : Nat} (below : k < old.n) :
    childUnits k old = .ok (k, k + old.n) := by
  simp [childUnits, UnitCount.contains, below, doubled]

theorem low_of_childUnits {k low high : Nat} (children : childUnits k old = .ok (low, high)) :
    low = k := by
  unfold childUnits at children
  split at children
  · cases children
  · split at children
    · cases children
    · exact (Prod.mk.inj (Except.ok.inj children)).1.symm

theorem existsUnique_parent (doubled : old.double = .ok next) {c : Nat} (below : c < next.n) :
    ∃! k, k < old.n ∧ ∃ low high, childUnits k old = .ok (low, high) ∧ (c = low ∨ c = high) := by
  have twice := UnitCount.n_of_double doubled
  refine ⟨c % old.n, ⟨Nat.mod_lt _ old.pos, ?_⟩, ?_⟩
  · refine ⟨_, _, childUnits_eq doubled (Nat.mod_lt _ old.pos), ?_⟩
    by_cases small : c < old.n
    · exact .inl (Nat.mod_eq_of_lt small).symm
    · right
      rw [Nat.mod_eq_sub_mod (by omega), Nat.mod_eq_of_lt (by omega)]
      omega
  · rintro k ⟨inside, low, high, children, child⟩
    rw [childUnits_eq doubled inside] at children
    cases Except.ok.inj children
    rcases child with rfl | rfl
    · exact (Nat.mod_eq_of_lt inside).symm
    · rw [Nat.add_mod_right, Nat.mod_eq_of_lt inside]

theorem halve_of_double (doubled : old.double = .ok next) : next.halve = .ok old := by
  have twice := UnitCount.n_of_double doubled
  have large : ¬ next.n ≤ minUnitCount := by
    have positive := old.pos
    have : minUnitCount = 1 := rfl
    omega
  have half : (next.n : Int) / 2 = old.n := by omega
  rw [UnitCount.halve, if_neg large, half, UnitCount.new_n]

namespace GenState

def placementGenUnit (gs : GenState) (replicaLayout : Bool) (h : ShardHash) : GenUnit :=
  if !replicaLayout && gs.nextCount.isSome then
    { gen := gs.gen, id := unitForHash h gs.count }
  else gs.resolveGenUnit h

variable {gs : GenState}

section

variable (entered : gs.nextCount = some next)
include entered

theorem resolveGenUnit_cases (h : ShardHash) :
    unitForHash h gs.count ∉ gs.cutOver ∧
        gs.resolveGenUnit h = ⟨gs.gen, unitForHash h gs.count⟩ ∨
      unitForHash h gs.count ∈ gs.cutOver ∧
        gs.resolveGenUnit h = ⟨gs.gen + 1, unitForHash h next⟩ := by
  by_cases moved : unitForHash h gs.count ∈ gs.cutOver
  · exact .inr ⟨moved, resolveGenUnit_next moved entered⟩
  · exact .inl ⟨moved, resolveGenUnit_old moved⟩

theorem resolveGenUnit_congr {h h' : ShardHash}
    (same : unitForHash h gs.count = unitForHash h' gs.count)
    (same' : unitForHash h next = unitForHash h' next) :
    gs.resolveGenUnit h = gs.resolveGenUnit h' := by
  obtain ⟨stays, old⟩ | ⟨moved, new⟩ := resolveGenUnit_cases entered h
  · rw [old, resolveGenUnit_old (same ▸ stays), same]
  · rw [new, resolveGenUnit_next (same ▸ moved) entered, same']

theorem parentUnit_resolveGenUnit (twice : next.n = 2 * gs.count.n) (h : ShardHash) :
    parentUnit (gs.resolveGenUnit h).id next = .ok (unitForHash h gs.count) := by
  have inside := unitForHash_lt h gs.count
  obtain ⟨-, old⟩ | ⟨-, new⟩ := resolveGenUnit_cases entered h
  · rw [old, parentUnit_of_double twice (by omega : unitForHash h gs.count < next.n),
      Nat.mod_eq_of_lt inside]
  · rw [new, parentUnit_of_double twice (unitForHash_lt h next), unitForHash_mod_of_double twice]

end

end GenState

/-- **Doubling, and what it makes of a reshard in flight.** Children partition the doubled count
and collapse into their parents. So whatever has cut over, hashes that share their units resolve
together, and at one replica the nodes of a split agree on the placement of a hash. -/
theorem doubling_laws (old next : UnitCount) (doubled : old.double = .ok next) :
    (∀ h, childUnit h old = .ok (unitForHash h next) ∧
        (∃ low high, childUnits (unitForHash h old) old = .ok (low, high) ∧
          (unitForHash h next = low ∨ unitForHash h next = high)) ∧
        parentUnit (unitForHash h next) next = .ok (unitForHash h old)) ∧
      (∀ k < old.n, ∃ low high, childUnits k old = .ok (low, high) ∧
        low < next.n ∧ high < next.n ∧ low ≠ high) ∧
      (∀ c < next.n, ∃! k, k < old.n ∧
        ∃ low high, childUnits k old = .ok (low, high) ∧ (c = low ∨ c = high)) ∧
      next.halve = .ok old ∧
      (∀ (gs : GenState) (target : UnitCount), gs.nextCount = some target →
        gs.count.double = .ok target ∨ gs.count.halve = .ok target →
        (∀ h, gs.resolveGenUnit h = ⟨gs.gen, unitForHash h gs.count⟩ ∨
          gs.resolveGenUnit h = ⟨gs.gen + 1, unitForHash h target⟩) ∧
        ∀ h h', unitForHash h gs.count = unitForHash h' gs.count →
          unitForHash h target = unitForHash h' target →
          gs.resolveGenUnit h = gs.resolveGenUnit h') ∧
      ∀ (a b : GenState) (h : ShardHash), a.gen = b.gen → a.count = old → b.count = old →
        a.nextCount = some next → b.nextCount = some next →
        a.placementGenUnit false h = b.placementGenUnit false h ∧
          (a.placementGenUnit false h).gen = a.gen ∧
          parentUnit (a.resolveGenUnit h).id next = .ok (a.placementGenUnit false h).id ∧
          parentUnit (b.resolveGenUnit h).id next = .ok (a.placementGenUnit false h).id := by
  have twice := UnitCount.n_of_double doubled
  refine ⟨?_, ?_, ?_, halve_of_double doubled, ?_, ?_⟩
  · intro h
    refine ⟨childUnit_eq doubled h, ?_, ?_⟩
    · exact ⟨_, _, childUnits_eq doubled (unitForHash_lt h old),
        unitForHash_double_mem_childUnits twice h⟩
    · rw [parentUnit_of_double twice (unitForHash_lt h next), unitForHash_mod_of_double twice]
  · intro k below
    exact ⟨k, k + old.n, childUnits_eq doubled below, by omega, by omega, by omega⟩
  · intro c below
    exact existsUnique_parent doubled below
  · intro gs target entered _
    refine ⟨?_, ?_⟩
    · intro h
      exact (GenState.resolveGenUnit_cases entered h).imp And.right And.right
    · intro h h' same same'
      exact GenState.resolveGenUnit_congr entered same same'
  · intro a b h gens countA countB enteredA enteredB
    subst countA
    have parentA := GenState.parentUnit_resolveGenUnit enteredA twice h
    have parentB := GenState.parentUnit_resolveGenUnit enteredB (countB.symm ▸ twice) h
    rw [countB] at parentB
    simp only [GenState.placementGenUnit, enteredA, enteredB, gens, countB]
    exact ⟨rfl, rfl, parentA, parentB⟩

theorem doubling_laws_one :
    childUnit 5 .one = .ok (unitForHash 5 .two) ∧ parentUnit (unitForHash 5 .two) .two = .ok 0 := by
  have laws := (doubling_laws .one .two (by decide)).1 5
  exact ⟨laws.1, laws.2.2⟩

end Shale
