import Shale.Replication.PendingRoute

/-!
# Desired positions tile the cluster

Every node derives for itself, from the routing state and the placement of units, the positions it
has to mount (`desiredReplicaUnitsVia`). Over all nodes that agree on the two, these lists give
every position to one node: a unit of the live generation and the survivor of a merge to the
members of its own placement, the child of a split to the members of its parent's, each member at
the slot of its index.
-/

namespace Shale

namespace View

variable {v : View} {replicaAt : GenUnit → List Nat} {next : UnitCount} {ru ru' : ReplicaUnit}

theorem exists_parentUnit {count : UnitCount} (grows : count.n < next.n) {child : Nat}
    (below : child < next.n) : ∃ parent, parentUnit child next = .ok parent := by
  have large : ¬ next.n ≤ minUnitCount := by
    have positive := count.pos
    change ¬ next.n ≤ 1
    omega
  exact ⟨child % (next.n / 2), by simp [parentUnit, UnitCount.contains, below, large]⟩

end View

theorem of_placedBy {gs : GenState} {gu home : GenUnit} (governed : placedBy gs gu = some home) :
    gu.gen = gs.gen ∧ gu.id < gs.count.n ∧ home = gu ∨
      gu.gen = gs.gen + 1 ∧ ∃ next, gs.nextCount = some next ∧ gu.id < next.n ∧
        (gs.count.n < next.n ∧ home.gen = gs.gen ∧ parentUnit gu.id next = .ok home.id ∨
          next.n ≤ gs.count.n ∧ home = gu) := by
  unfold placedBy at governed
  split at governed
  case isTrue live =>
    obtain ⟨below, same⟩ := Option.ite_none_right_eq_some.mp governed
    exact .inl ⟨live, below, (Option.some.inj same).symm⟩
  case isFalse =>
    obtain ⟨later, governed⟩ := Option.ite_none_right_eq_some.mp governed
    refine .inr ⟨later, ?_⟩
    split at governed
    · cases governed
    case h_2 next entered =>
      obtain ⟨below, governed⟩ := Option.ite_none_right_eq_some.mp governed
      refine ⟨next, entered, below, ?_⟩
      split at governed
      case isTrue grows =>
        obtain ⟨parent, found, rfl⟩ := Option.map_eq_some_iff.mp governed
        refine .inl ⟨grows, rfl, ?_⟩
        cases parents : parentUnit gu.id next with
        | error err => simp [parents, Except.toOption] at found
        | ok own => simpa [parents, Except.toOption] using found
      case isFalse shrinks =>
        exact .inr ⟨Nat.not_lt.mp shrinks, (Option.some.inj governed).symm⟩

namespace View

variable {v : View} {placement : GenUnit → List Nat} {ru ru' : ReplicaUnit}

theorem nodup_ownedReplicaUnitsVia (v : View) (placement : GenUnit → List Nat) (gen : Nat)
    (count : UnitCount) : (v.ownedReplicaUnitsVia placement gen count).Nodup := by
  refine List.Nodup.filterMap ?_ List.nodup_range
  intro u u' ru made made'
  obtain ⟨slot, -, rfl⟩ := Option.map_eq_some_iff.mp made
  obtain ⟨slot', -, same⟩ := Option.map_eq_some_iff.mp made'
  exact (congrArg (·.unit.id) same).symm

theorem nodup_splitChildrenAt (v : View) (placement : GenUnit → List Nat) (next : UnitCount) :
    (v.splitChildrenAt placement next).Nodup := by
  refine List.Nodup.filterMap ?_ List.nodup_range
  intro u u' ru made made'
  split at made
  · cases made
  split at made'
  · cases made'
  obtain ⟨slot, -, rfl⟩ := Option.map_eq_some_iff.mp made
  obtain ⟨slot', -, same⟩ := Option.map_eq_some_iff.mp made'
  exact (congrArg (·.unit.id) same).symm

theorem nodup_desiredReplicaUnitsVia (v : View) (placement : GenUnit → List Nat) :
    (v.desiredReplicaUnitsVia placement).Nodup := by
  have later : (v.nextReplicaUnitsVia placement).Nodup := by
    unfold nextReplicaUnitsVia
    split
    · exact List.nodup_nil
    · split
      · exact v.nodup_splitChildrenAt placement _
      · exact v.nodup_ownedReplicaUnitsVia placement _ _
  refine List.Nodup.append (v.nodup_ownedReplicaUnitsVia placement _ _) later ?_
  intro ru live mem
  have := (mem_ownedReplicaUnitsVia.mp live).1
  have := gen_of_mem_nextReplicaUnitsVia mem
  omega

end View

theorem Replicated.Cluster.desired_iff (c : Replicated.Cluster) {gs : GenState} {n : Nat}
    (step : ∀ next, gs.nextCount = some next → next.n > gs.count.n → next.n = 2 * gs.count.n)
    (ru : ReplicaUnit) : c.desired gs n ru = true ↔ ru ∈ (c.viewOf n gs).desiredReplicaUnits := by
  have live : (c.viewOf n gs).gs = gs := rfl
  have owned : ∀ {gen count}, c.owns gen count n ru = true ↔
      ru ∈ (c.viewOf n gs).ownedReplicaUnitsVia (c.viewOf n gs).unitReplicas gen count := by
    intro gen count
    rw [View.mem_ownedReplicaUnitsVia, unitReplicas_viewOf]
    simp [owns, UnitCount.contains, viewOf, and_assoc]
  rw [desired, View.desiredReplicaUnits_eq, View.desiredReplicaUnitsVia, Bool.or_eq_true,
    List.mem_append, live, owned]
  refine or_congr Iff.rfl ?_
  cases entered : gs.nextCount with
  | none => simp
  | some next =>
    by_cases grows : next.n > gs.count.n
    · have twice := step next entered grows
      have half : next.n / 2 = gs.count.n := by omega
      have inside := Nat.mod_lt ru.unit.id gs.count.pos
      simp only [grows, ↓reduceIte, View.mem_splitChildrenAt, unitReplicas_viewOf]
      by_cases below : ru.unit.id < next.n <;>
        simp [owns, UnitCount.contains, half, inside, viewOf, below, parentUnit_of_double twice]
    · simp only [grows, ↓reduceIte]
      exact owned

def GivenTo (members : Set Nat) (desired : Nat → List ReplicaUnit) (ru : ReplicaUnit)
    (holder : Nat) : Prop :=
  holder ∈ members ∧ ∀ node ∈ members, ru ∈ desired node ↔ node = holder

section Tiles

variable {gs : GenState} {members : Set Nat} {nodes : Nat → View}
  {placement : GenUnit → List Nat} {ru : ReplicaUnit} {home : GenUnit} {node holder i : Nat}

structure Agree (members : Set Nat) (nodes : Nat → View) (gs : GenState)
    (placement : GenUnit → List Nat) : Prop where
  self : ∀ node ∈ members, (nodes node).self = node
  gs : ∀ node ∈ members, (nodes node).gs = gs
  placed : ∀ gu, ∀ node ∈ placement gu, node ∈ members
  distinct : ∀ gu, (placement gu).Nodup
  bounded : ∀ gu, (placement gu).length ≤ 256

theorem Agree.mem_iff (agree : Agree members nodes gs placement) (mem : node ∈ members) :
    ru ∈ (nodes node).desiredReplicaUnitsVia placement ↔
      ∃ home i, placedBy gs ru.unit = some home ∧ (placement home)[i]? = some node ∧
        ru.replica = UInt8.ofNat i := by
  rw [View.mem_desiredReplicaUnitsVia_iff, agree.gs node mem, agree.self node mem]
  simp only [Option.map_eq_some_iff]
  constructor
  · rintro ⟨home, placed, i, found, same⟩
    exact ⟨home, i, placed, (idxOf?_eq_some_iff_getElem? (agree.distinct home)).mp found, same.symm⟩
  · rintro ⟨home, i, placed, found, same⟩
    exact ⟨home, placed, i, (idxOf?_eq_some_iff_getElem? (agree.distinct home)).mpr found,
      same.symm⟩

theorem Agree.givenTo (agree : Agree members nodes gs placement) {gu : GenUnit}
    (governed : placedBy gs gu = some home) (found : (placement home)[i]? = some holder) :
    GivenTo members (fun node => (nodes node).desiredReplicaUnitsVia placement)
      ⟨gu, UInt8.ofNat i⟩ holder := by
  refine ⟨agree.placed home holder (List.mem_of_getElem? found), fun node member => ?_⟩
  rw [agree.mem_iff member]
  constructor
  · rintro ⟨other, j, governs, held, same⟩
    obtain rfl := Option.some.inj (governs.symm.trans governed)
    have within : ∀ {k member}, (placement other)[k]? = some member → k < 256 := by
      intro k member held
      have := (List.getElem?_eq_some_iff.mp held).1
      have := agree.bounded other
      omega
    obtain rfl := position_inj (within found) (within held) same
    exact Option.some.inj (held.symm.trans found)
  · rintro rfl
    exact ⟨home, i, governed, found, rfl⟩

/-- **Desired positions tile the cluster.** Over nodes that agree on the routing state and the
placements, each position is given to exactly one node, the member at its index or, in a split, at
that slot of the parent; and no other position is given to anyone. -/
theorem desired_positions_tile (members : Set Nat) (nodes : Nat → View) (gs : GenState)
    (placement : GenUnit → List Nat) (agree : Agree members nodes gs placement) :
    let desired := fun node => (nodes node).desiredReplicaUnitsVia placement
    (∀ u < gs.count.n, ∀ i holder, (placement ⟨gs.gen, u⟩)[i]? = some holder →
        GivenTo members desired ⟨⟨gs.gen, u⟩, UInt8.ofNat i⟩ holder) ∧
      (∀ node ∈ members, ∀ ru ∈ desired node, ru.unit.gen = gs.gen →
        ru.unit.id < gs.count.n ∧
          ∃ i, (placement ru.unit)[i]? = some node ∧ ru.replica = UInt8.ofNat i) ∧
      (∀ next, gs.nextCount = some next → gs.count.n < next.n → ∀ child < next.n,
        ∃ parent, parentUnit child next = .ok parent ∧
          ∀ slot holder, (placement ⟨gs.gen, parent⟩)[slot]? = some holder →
            GivenTo members desired ⟨⟨gs.gen + 1, child⟩, UInt8.ofNat slot⟩ holder) ∧
      (∀ next, gs.nextCount = some next → next.n ≤ gs.count.n → ∀ u < next.n, ∀ i holder,
        (placement ⟨gs.gen + 1, u⟩)[i]? = some holder →
          GivenTo members desired ⟨⟨gs.gen + 1, u⟩, UInt8.ofNat i⟩ holder) ∧
      (∀ node ∈ members, ∀ ru ∈ desired node, ru.unit.gen ≠ gs.gen →
        ru.unit.gen = gs.gen + 1 ∧ ∃ next, gs.nextCount = some next ∧ ru.unit.id < next.n ∧
          ∃ home i, (placement home)[i]? = some node ∧ ru.replica = UInt8.ofNat i ∧
            (gs.count.n < next.n ∧ home.gen = gs.gen ∧ parentUnit ru.unit.id next = .ok home.id ∨
              next.n ≤ gs.count.n ∧ home = ru.unit)) ∧
      ∀ node ∈ members, (desired node).Nodup ∧
        ∀ ru ∈ desired node, ∀ ru' ∈ desired node, ru.unit = ru'.unit → ru = ru' := by
  intro desired
  refine ⟨?_, ?_, ?_, ?_, ?_, ?_⟩
  · intro u below i holder found
    exact agree.givenTo (by simp [placedBy, below]) found
  · intro node member ru given live
    obtain ⟨home, i, governed, found, same⟩ := (agree.mem_iff member).mp given
    obtain ⟨-, below, rfl⟩ | ⟨later, -⟩ := of_placedBy governed
    · exact ⟨below, i, found, same⟩
    · omega
  · intro next entered grows child below
    obtain ⟨parent, parents⟩ := View.exists_parentUnit grows below
    refine ⟨parent, parents, fun slot holder found => ?_⟩
    exact agree.givenTo (by simp [placedBy, entered, below, grows, parents, Except.toOption]) found
  · intro next entered shrinks u below i holder found
    exact agree.givenTo (by simp [placedBy, entered, below, Nat.not_lt.mpr shrinks]) found
  · intro node member ru given other
    obtain ⟨home, i, governed, found, same⟩ := (agree.mem_iff member).mp given
    obtain ⟨live, -⟩ | ⟨later, next, entered, below, governs⟩ := of_placedBy governed
    · exact absurd live other
    · exact ⟨later, next, entered, below, home, i, found, same, governs⟩
  · intro node member
    refine ⟨(nodes node).nodup_desiredReplicaUnitsVia placement, ?_⟩
    intro ru given ru' given' unit
    obtain ⟨home, i, governed, found, same⟩ := (agree.mem_iff member).mp given
    obtain ⟨home', j, governed', found', same'⟩ := (agree.mem_iff member).mp given'
    obtain rfl : home = home' := Option.some.inj (governed.symm.trans (unit ▸ governed'))
    have index : i = j := by
      have first := (idxOf?_eq_some_iff_getElem? (agree.distinct home)).mpr found
      have second := (idxOf?_eq_some_iff_getElem? (agree.distinct home)).mpr found'
      exact Option.some.inj (first.symm.trans second)
    obtain ⟨gu, replica⟩ := ru
    obtain ⟨gu', replica'⟩ := ru'
    dsimp only at unit same same'
    rw [unit, same, same', index]

def splittingNode (node : Nat) : View where
  self := node
  r := 2
  gs := ⟨0, .one, some .two, ∅⟩
  joining := []
  draining := []
  locate := fun _ _ => [1, 2]

theorem desired_positions_tile_split :
    GivenTo Set.univ (fun node => (splittingNode node).desiredReplicaUnitsVia fun _ => [1, 2])
      ⟨⟨1, 1⟩, 0⟩ 1 := by
  have agree : Agree Set.univ splittingNode ⟨0, .one, some .two, ∅⟩ fun _ => [1, 2] :=
    ⟨fun _ _ => rfl, fun _ _ => rfl, fun _ _ _ => trivial, by simp, by simp⟩
  obtain ⟨parent, parents, given⟩ := (desired_positions_tile Set.univ splittingNode _ _ agree).2.2.1
    .two rfl (by decide) 1 (by decide)
  exact given 0 1 rfl

end Tiles

end Shale
