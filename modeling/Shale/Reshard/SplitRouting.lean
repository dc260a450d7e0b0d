import Shale.Replication.QuorumRead
import Shale.Replication.WriteDurability
import Shale.Reshard.Replicated

/-!
# Reads and writes of a unit that has split

Once a node has seen the cut-over of a unit, its dual-writes gate on the child at the slots
of the parent's members (`routedReplicasForReshard`), and the children are mounted there
(`desiredReplicaUnitsVia`). A read routes the same child by the child's own placement
(`routedReplicasWithUnit`), and a member serves it from whatever position of the child it
has mounted (`backendForOrLowest`). The two agree exactly when the ring places the child
where it placed the parent.
-/

namespace Shale

namespace View

def parentOf (v : View) (h : ShardHash) : GenUnit :=
  { gen := v.gs.gen, id := unitForHash h v.gs.count }

def childOf (v : View) (next : UnitCount) (h : ShardHash) : GenUnit :=
  { gen := v.gs.gen + 1, id := unitForHash h next }

structure SplitCutOver (v : View) (next : UnitCount) (h : ShardHash) : Prop where
  noJoin : v.joining = []
  noDrain : v.draining = []
  entered : v.gs.nextCount = some next
  grows : v.gs.count.n < next.n
  moved : unitForHash h v.gs.count ∈ v.gs.cutOver

variable {v : View} {next : UnitCount} {h : ShardHash}

theorem SplitCutOver.writeRoute (split : v.SplitCutOver next h) (wc : WriteConsistency) :
    v.writeRoute wc h =
      { auth := legsAt (v.childOf next h) (v.unitReplicas (v.parentOf h))
        supp := legsAt (v.parentOf h) (v.unitReplicas (v.parentOf h))
        bar := requiredWriteAcks wc (v.unitReplicas (v.parentOf h)).length } := by
  have cut := GenState.hasCutOver_iff.mpr split.moved
  simp only [View.writeRoute, routedReplicasForReshard, split.entered, split.grows, cut,
    ↓reduceIte, v.unitReplicas_ne_nil]
  rfl

theorem SplitCutOver.routedReplicasWithUnit (split : v.SplitCutOver next h) :
    v.routedReplicasWithUnit (v.gs.resolveGenUnit h) =
      (legsAt (v.childOf next h) (v.unitReplicas (v.childOf next h)),
        (v.unitReplicas (v.childOf next h)).length) := by
  rw [v.routedReplicasWithUnit_of_stable split.noJoin split.noDrain,
    GenState.resolveGenUnit_next split.moved split.entered]
  rfl

end View

namespace View

variable (v : View)

def ownedReplicaUnitsAt (gen : Nat) (count : UnitCount) : List ReplicaUnit :=
  (List.range count.n).filterMap fun u =>
    ((v.unitReplicas ⟨gen, u⟩).idxOf? v.self).map fun slot => ⟨⟨gen, u⟩, UInt8.ofNat slot⟩

def splitChildrenVia (next : UnitCount) : List ReplicaUnit :=
  (List.range next.n).filterMap fun child =>
    match parentUnit child next with
    | .error _ => none
    | .ok parent =>
      ((v.unitReplicas ⟨v.gs.gen, parent⟩).idxOf? v.self).map fun slot =>
        ⟨⟨v.gs.gen + 1, child⟩, UInt8.ofNat slot⟩

def desiredReplicaUnits : List ReplicaUnit :=
  v.ownedReplicaUnitsAt v.gs.gen v.gs.count ++
    match v.gs.nextCount with
    | none => []
    | some next =>
      if next.n > v.gs.count.n then v.splitChildrenVia next
      else v.ownedReplicaUnitsAt (v.gs.gen + 1) next

end View

def lowerOf (gu : GenUnit) (got : Option ReplicaUnit) (cand : ReplicaUnit) : Option ReplicaUnit :=
  if cand.unit ≠ gu then got
  else
    match got with
    | none => some cand
    | some lowest => if cand.replica < lowest.replica then some cand else some lowest

def lowestLocked (mounts : List ReplicaUnit) (gu : GenUnit) : Option ReplicaUnit :=
  mounts.foldl (lowerOf gu) none

def backendForOrLowest (mounts : List ReplicaUnit) (ru : ReplicaUnit) : Option ReplicaUnit :=
  if ru ∈ mounts then some ru else lowestLocked mounts ru.unit

namespace View

variable {v : View} {next : UnitCount} {h : ShardHash}

def ownedReplicaUnitsVia (v : View) (replicaAt : GenUnit → List Nat) (gen : Nat)
    (count : UnitCount) : List ReplicaUnit :=
  (List.range count.n).filterMap fun u =>
    ((replicaAt ⟨gen, u⟩).idxOf? v.self).map fun slot => ⟨⟨gen, u⟩, UInt8.ofNat slot⟩

theorem mem_ownedReplicaUnitsVia {replicaAt : GenUnit → List Nat} {gen : Nat}
    {count : UnitCount} {ru : ReplicaUnit} :
    ru ∈ v.ownedReplicaUnitsVia replicaAt gen count ↔ ru.unit.gen = gen ∧ ru.unit.id < count.n ∧
      ((replicaAt ru.unit).idxOf? v.self).map UInt8.ofNat = some ru.replica := by
  obtain ⟨⟨g, id⟩, replica⟩ := ru
  simp only [ownedReplicaUnitsVia, List.mem_filterMap, List.mem_range, Option.map_eq_some_iff,
    ReplicaUnit.mk.injEq, GenUnit.mk.injEq]
  constructor
  · rintro ⟨u, below, slot, found, ⟨rfl, rfl⟩, rfl⟩
    exact ⟨rfl, below, slot, found, rfl⟩
  · rintro ⟨rfl, below, slot, found, rfl⟩
    exact ⟨id, below, slot, found, ⟨rfl, rfl⟩, rfl⟩

end View

def View.readAnswers (v : View) (h : ShardHash) (db : ReplicaUnit → Store Envelope)
    (key : Bytes) : List LegAnswer :=
  (v.routedReplicasWithUnit (v.gs.resolveGenUnit h)).1.map fun leg =>
    match backendForOrLowest { v with self := leg.member }.desiredReplicaUnits leg.ru with
    | none => .transient
    | some ru => ((db ru).get key).elim .notFound .value

def SameSlots (a b : List Nat) : Prop :=
  ∀ member slot, (∃ i, i % 256 = slot ∧ a[i]? = some member) ↔
    ∃ i, i % 256 = slot ∧ b[i]? = some member

variable {gu : GenUnit} {a b : List Nat}

theorem sameSlots_iff_eq (small : a.length ≤ 256) (small' : b.length ≤ 256) :
    SameSlots a b ↔ a = b := by
  have inside : ∀ {nodes : List Nat}, nodes.length ≤ 256 → ∀ {member slot}, slot < 256 →
      ((∃ i, i % 256 = slot ∧ nodes[i]? = some member) ↔ nodes[slot]? = some member) := by
    intro nodes bound member slot below
    constructor
    · rintro ⟨i, rfl, found⟩
      have := (List.getElem?_eq_some_iff.mp found).1
      rwa [Nat.mod_eq_of_lt (by omega)]
    · exact fun found => ⟨slot, Nat.mod_eq_of_lt below, found⟩
  constructor
  · intro same
    apply List.ext_getElem?
    intro i
    by_cases below : i < 256
    · apply Option.ext
      intro member
      rw [← inside small below, ← inside small' below]
      exact same member i
    · rw [List.getElem?_eq_none (by omega), List.getElem?_eq_none (by omega)]
  · rintro rfl member slot
    exact Iff.rfl

theorem mem_legsAt_iff_slot {members : List Nat} {leg : RoutedReplica} :
    leg ∈ legsAt gu members ↔ leg.ru.unit = gu ∧
      ∃ i, i % 256 = leg.ru.replica.toNat ∧ members[i]? = some leg.member := by
  obtain ⟨member, unit, replica⟩ := leg
  rw [mem_legsAt]
  simp only [ReplicaUnit.mk.injEq]
  constructor
  · rintro ⟨i, found, rfl, rfl⟩
    exact ⟨rfl, i, by simp, found⟩
  · rintro ⟨rfl, i, slot, found⟩
    refine ⟨i, found, rfl, ?_⟩
    rw [← UInt8.toNat_inj, ← slot]
    simp

theorem sameSlots_iff_legsAt :
    (∀ leg, leg ∈ legsAt gu a ↔ leg ∈ legsAt gu b) ↔ SameSlots a b := by
  constructor
  · intro same mem slot
    by_cases below : slot < 256
    · have := same ⟨mem, gu, UInt8.ofNat slot⟩
      simpa [mem_legsAt_iff_slot, Nat.mod_eq_of_lt below] using this
    · constructor
      · rintro ⟨i, rfl, -⟩
        exact absurd (Nat.mod_lt i (by decide)) below
      · rintro ⟨i, rfl, -⟩
        exact absurd (Nat.mod_lt i (by decide)) below
  · intro same leg
    rw [mem_legsAt_iff_slot, mem_legsAt_iff_slot, same]

/-- **Reads and writes of a split unit.** After the cut-over, a node reads a key at the legs
its dual-writes ack over, so that read and write quorums meet, if and only if the ring
places the child's replicas at the slots of its parent's. -/
theorem read_legs_agree_iff {v : View} {next : UnitCount} {h : ShardHash}
    (split : v.SplitCutOver next h) {rc : ReadConsistency} (strict : rc ≠ .nearest) :
    ((∀ leg, leg ∈ (v.routedReplicasWithUnit (v.gs.resolveGenUnit h)).1 ↔
        leg ∈ (v.writeRoute .quorum h).auth) ∧
      ∀ acked heard : Finset RoutedReplica, acked ⊆ (v.writeRoute .quorum h).auth.toFinset →
        heard ⊆ (v.routedReplicasWithUnit (v.gs.resolveGenUnit h)).1.toFinset →
        (v.writeRoute .quorum h).bar ≤ acked.card →
        requiredReadReplicas rc (v.routedReplicasWithUnit (v.gs.resolveGenUnit h)).2 ≤
          heard.card → (acked ∩ heard).Nonempty) ↔
    SameSlots (v.unitReplicas (v.childOf next h)) (v.unitReplicas (v.parentOf h)) := by
  rw [split.writeRoute, split.routedReplicasWithUnit, ← sameSlots_iff_legsAt]
  dsimp only
  refine ⟨And.left, fun same => ⟨same, ?_⟩⟩
  intro acked heard ackedIn heardIn enough many
  have sets : (legsAt (v.childOf next h) (v.unitReplicas (v.childOf next h))).toFinset =
      (legsAt (v.childOf next h) (v.unitReplicas (v.parentOf h))).toFinset := by
    ext leg
    simpa using same leg
  rw [sets] at heardIn
  apply Finset.inter_nonempty_of_card_lt_card_add_card ackedIn heardIn
  have written := List.toFinset_card_le (legsAt (v.childOf next h) (v.unitReplicas (v.parentOf h)))
  have read := List.toFinset_card_le
    (legsAt (v.childOf next h) (v.unitReplicas (v.childOf next h)))
  rw [sets] at read
  rw [length_legsAt] at written read
  cases rc with
  | nearest => exact absurd rfl strict
  | quorum =>
    simp only [requiredWriteAcks, requiredReadReplicas] at enough many
    omega
  | all =>
    simp only [requiredWriteAcks, requiredReadReplicas] at enough many
    omega

def splitView (home : List Nat) : View where
  self := 0
  r := 3
  gs :=
    { gen := 0
      count := .one
      nextCount := some .two
      cutOver := {0} }
  joining := []
  draining := []
  locate := fun gu _ => if gu.gen = 0 then [0, 1, 2] else home

theorem splitView_splitCutOver (home : List Nat) : (splitView home).SplitCutOver .two 0 :=
  ⟨rfl, rfl, rfl, Nat.lt_succ_self 1, by simp [splitView, unitForHash]⟩

/-- The first two positions of the child, as the dual-write addresses them. -/
def ackedLegs : Finset RoutedReplica :=
  {⟨0, ⟨⟨1, 0⟩, 0⟩⟩, ⟨1, ⟨⟨1, 0⟩, 1⟩⟩}

theorem split_quorums_meet : (ackedLegs ∩ {⟨1, ⟨⟨1, 0⟩, 1⟩⟩, ⟨2, ⟨⟨1, 0⟩, 2⟩⟩}).Nonempty := by
  have agree := (read_legs_agree_iff (splitView_splitCutOver [0, 1, 2])
    (by decide : ReadConsistency.quorum ≠ .nearest)).mpr
      ((sameSlots_iff_eq (by decide) (by decide)).mpr (by decide))
  exact agree.2 _ _ (by decide) (by decide) (by decide) (by decide)

/-- With the children placed at nodes 2, 3 and 4, a write quorum and a read quorum have no
leg in common, and a read of a key acked at positions 0 and 1 reports it as absent: only
node 2 answers it, from the third position. -/
theorem split_read_misses_dual_write :
    (splitView [2, 3, 4]).SplitCutOver .two 0 ∧
      (∃ acked heard : Finset RoutedReplica,
        acked ⊆ ((splitView [2, 3, 4]).writeRoute .quorum 0).auth.toFinset ∧
        heard ⊆ ((splitView [2, 3, 4]).routedReplicasWithUnit ⟨1, 0⟩).1.toFinset ∧
        ((splitView [2, 3, 4]).writeRoute .quorum 0).bar ≤ acked.card ∧
        requiredReadReplicas .quorum ((splitView [2, 3, 4]).routedReplicasWithUnit ⟨1, 0⟩).2 ≤
          heard.card ∧ ¬ (acked ∩ heard).Nonempty) ∧
      ∃ trace applied db, trace.Follows ((splitView [2, 3, 4]).writeRoute .quorum 0) ∧
        putReplicatedUnit .quorum 0 [(splitView [2, 3, 4], trace)] = some (2, applied) ∧
        (∀ ru ∈ applied, (db ru).HoldsAtLeast [7] ⟨1, 0⟩) ∧
        getReplicatedUnit ⟨.quorum, false⟩ 3 [(splitView [2, 3, 4]).readAnswers 0 db [7]] =
          .ok Envelope.zero := by
  refine ⟨splitView_splitCutOver _, ?_, ?_⟩
  · exact ⟨ackedLegs, {⟨3, ⟨⟨1, 0⟩, 1⟩⟩, ⟨4, ⟨⟨1, 0⟩, 2⟩⟩}, by decide, by decide, by decide,
      by decide, by decide⟩
  · refine ⟨ackTrace ((splitView [2, 3, 4]).writeRoute .quorum 0) [0, 1],
      [⟨⟨1, 0⟩, 0⟩, ⟨⟨1, 0⟩, 1⟩],
      fun ru => if ru.replica < 2 then Store.put ∅ [7] ⟨⟨1, 0⟩, [1]⟩ else ∅, ?_, ?_, ?_, ?_⟩
    · exact ackTrace_follows (by decide) (by decide) (by decide) (by decide)
    · decide
    · decide
    · decide

end Shale
