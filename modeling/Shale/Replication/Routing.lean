import Shale.Storage.Generation

/-!
# Routing a key to its replica positions

How a node turns a key into the legs it contacts: the placements of the key's unit under
the current and the pending membership (`internal/decide/union.go`), the union of the two
during a membership transition (`multibackend_pending_route.go`), and the two-generation
legs of a reshard in flight (`multibackend_reshard_route.go`). A leg is a member together
with the replica position, and so the database, it is asked to serve.
-/

namespace Shale

structure RoutedReplica where
  member : Nat
  ru : ReplicaUnit
deriving DecidableEq, Repr

def legsAt (gu : GenUnit) (members : List Nat) : List RoutedReplica :=
  members.mapIdx fun i member => { member, ru := { unit := gu, replica := UInt8.ofNat i } }

@[simp] theorem length_legsAt (gu : GenUnit) (members : List Nat) :
    (legsAt gu members).length = members.length := by
  simp [legsAt]

variable {members : List Nat} {gu : GenUnit}

theorem mem_legsAt {leg : RoutedReplica} :
    leg ∈ legsAt gu members ↔
      ∃ i, members[i]? = some leg.member ∧ leg.ru = ⟨gu, UInt8.ofNat i⟩ := by
  obtain ⟨member, ru⟩ := leg
  rw [legsAt, List.mem_mapIdx]
  constructor
  · rintro ⟨i, below, same⟩
    obtain ⟨rfl, rfl⟩ := RoutedReplica.mk.inj same
    exact ⟨i, by simp [below], rfl⟩
  · rintro ⟨i, found, rfl⟩
    obtain ⟨below, rfl⟩ := List.getElem?_eq_some_iff.mp found
    exact ⟨i, below, rfl⟩

theorem position_inj {i j : Nat} (left : i < 256) (right : j < 256)
    (same : UInt8.ofNat i = UInt8.ofNat j) : i = j := by
  have := congrArg UInt8.toNat same
  simp only [UInt8.toNat_ofNat'] at this
  omega

theorem nodup_legsAt :
    ((legsAt gu members).map RoutedReplica.ru).Nodup ↔ members.length ≤ 256 := by
  rw [List.nodup_iff_getElem?_ne_getElem?]
  simp only [List.length_map, length_legsAt]
  constructor
  · intro distinct
    by_contra! large
    apply distinct 0 256 (by omega) (by omega)
    have first : 0 < members.length := by omega
    simp [legsAt, large, first]
  · intro bound i j ordered below same
    have first : i < members.length := by omega
    simp only [legsAt, List.getElem?_map, List.getElem?_mapIdx, List.getElem?_eq_getElem below,
      List.getElem?_eq_getElem first, Option.map_some, Option.some.injEq,
      ReplicaUnit.mk.injEq, true_and] at same
    have := position_inj (by omega) (by omega) same
    omega

inductive CurrentSetChoice where
  | joinerExcluded
  | fullRing
deriving DecidableEq, Repr

def currentReplicaSet (fullRing joinerExcluded r : Nat) : CurrentSetChoice :=
  if joinerExcluded < r ∨ joinerExcluded < fullRing then .fullRing else .joinerExcluded

inductive PendingSetChoice where
  | drainerExcluded
  | fullRing
deriving DecidableEq, Repr

def pendingReplicaSet (drainerExcluded : Nat) : PendingSetChoice :=
  if drainerExcluded = 0 then .fullRing else .drainerExcluded

structure Placements where
  full : List Nat
  joinerExcluded : List Nat
  drainerExcluded : List Nat

def Placements.currentSet (p : Placements) : CurrentSetChoice → List Nat
  | .fullRing => p.full
  | .joinerExcluded => p.joinerExcluded

def Placements.pendingSet (p : Placements) : PendingSetChoice → List Nat
  | .fullRing => p.full
  | .drainerExcluded => p.drainerExcluded

def sameMembers (a b : List Nat) : Bool :=
  a.length == b.length && a.all b.contains

def unionMembers (current pending : List Nat) : List Nat :=
  pending.foldl (fun out id => if out.contains id then out else out ++ [id]) current

structure Routing where
  current : CurrentSetChoice
  pending : PendingSetChoice
  stableR : Nat
  inTransition : Bool
  routed : List Nat

def route (p : Placements) (r : Nat) : Routing :=
  let currentChoice := currentReplicaSet p.full.length p.joinerExcluded.length r
  let pendingChoice := pendingReplicaSet p.drainerExcluded.length
  let current := p.currentSet currentChoice
  let pending := p.pendingSet pendingChoice
  if sameMembers current pending then
    { current := currentChoice, pending := pendingChoice, stableR := current.length
      inTransition := false, routed := current }
  else
    { current := currentChoice, pending := pendingChoice, stableR := current.length
      inTransition := true, routed := unionMembers current pending }

theorem length_full_le_current (p : Placements) (r : Nat) :
    p.full.length ≤
      (p.currentSet (currentReplicaSet p.full.length p.joinerExcluded.length r)).length := by
  unfold currentReplicaSet
  split
  · exact le_rfl
  case isFalse enough =>
    change p.full.length ≤ p.joinerExcluded.length
    omega

/-- What one node routes by: its own id, the replication factor, its routing state, the
members that are joining and draining, and where the coordinator locates a unit when some
members are excluded. -/
structure View where
  self : Nat
  r : Nat
  gs : GenState
  joining : List Nat
  draining : List Nat
  locate : GenUnit → List Nat → List Nat

namespace View

variable (v : View)

def unitReplicas (gu : GenUnit) : List Nat :=
  if v.locate gu [] = [] then [v.self] else v.locate gu []

def unitOwnerOf (gu : GenUnit) : Nat := (v.unitReplicas gu).headD v.self

def placementsForUnit (gu : GenUnit) : Placements where
  full := v.unitReplicas gu
  joinerExcluded := if v.joining = [] then v.unitReplicas gu else v.locate gu v.joining
  drainerExcluded := if v.draining = [] then v.unitReplicas gu else v.locate gu v.draining

def currentMembers (gu : GenUnit) : List Nat :=
  (v.placementsForUnit gu).currentSet (route (v.placementsForUnit gu) v.r).current

def pendingMembers (gu : GenUnit) : List Nat :=
  (v.placementsForUnit gu).pendingSet (route (v.placementsForUnit gu) v.r).pending

def inTransition (gu : GenUnit) : Bool :=
  (route (v.placementsForUnit gu) v.r).inTransition

def addLegs (out more : List RoutedReplica) : List RoutedReplica :=
  more.foldl (fun out leg => if out.contains leg then out else out ++ [leg]) out

def routedReplicasWithUnit (gu : GenUnit) : List RoutedReplica × Nat :=
  let stableR := (route (v.placementsForUnit gu) v.r).stableR
  if v.inTransition gu then
    (addLegs (legsAt gu (v.currentMembers gu)) (legsAt gu (v.pendingMembers gu)), stableR)
  else (legsAt gu (v.currentMembers gu), stableR)

theorem unitReplicas_ne_nil (gu : GenUnit) : v.unitReplicas gu ≠ [] := by
  unfold unitReplicas
  split <;> simp_all

theorem stableR_eq (gu : GenUnit) :
    (route (v.placementsForUnit gu) v.r).stableR = (v.currentMembers gu).length := by
  unfold currentMembers route
  dsimp only
  split <;> rfl

theorem stableR_pos (gu : GenUnit) : 0 < (route (v.placementsForUnit gu) v.r).stableR := by
  have full := List.length_pos_iff.mpr (v.unitReplicas_ne_nil gu)
  have current := length_full_le_current (v.placementsForUnit gu) v.r
  rw [stableR_eq]
  unfold currentMembers route
  dsimp only
  split <;> exact full.trans_le current

theorem routedReplicasWithUnit_of_stable (noJoin : v.joining = []) (noDrain : v.draining = [])
    (gu : GenUnit) :
    v.routedReplicasWithUnit gu = (legsAt gu (v.unitReplicas gu), (v.unitReplicas gu).length) := by
  have placements : v.placementsForUnit gu =
      ⟨v.unitReplicas gu, v.unitReplicas gu, v.unitReplicas gu⟩ := by
    simp [placementsForUnit, noJoin, noDrain]
  have current : ∀ choice, (v.placementsForUnit gu).currentSet choice = v.unitReplicas gu := by
    intro choice
    cases choice <;> simp [placements, Placements.currentSet]
  have pending : ∀ choice, (v.placementsForUnit gu).pendingSet choice = v.unitReplicas gu := by
    intro choice
    cases choice <;> simp [placements, Placements.pendingSet]
  have same : sameMembers (v.unitReplicas gu) (v.unitReplicas gu) = true := by
    simp [sameMembers]
  simp [routedReplicasWithUnit, inTransition, currentMembers, route, current, pending, same]

/-- `reshardLegs`: the legs that gate the ack, and the best-effort ones. -/
structure ReshardLegs where
  auth : List RoutedReplica
  supp : List RoutedReplica
  stableR : Nat

def routedReplicasForReshard (h : ShardHash) : Option ReshardLegs :=
  match v.gs.nextCount with
  | none => none
  | some next =>
    let k := unitForHash h v.gs.count
    let parent : GenUnit := { gen := v.gs.gen, id := k }
    let other : GenUnit := { gen := v.gs.gen + 1, id := unitForHash h next }
    let parentMembers := v.unitReplicas parent
    let parentLegs := legsAt parent parentMembers
    let otherLegs :=
      -- a split's child lies at its parent's members, a merge's survivor at its own
      if next.n > v.gs.count.n then legsAt other parentMembers
      else legsAt other (v.unitReplicas other)
    if parentMembers = [] then none
    else if v.gs.hasCutOver k then
      some { auth := otherLegs, supp := parentLegs, stableR := parentMembers.length }
    else some { auth := parentLegs, supp := otherLegs, stableR := parentMembers.length }

theorem routedReplicasForReshard_none (h : ShardHash) :
    v.routedReplicasForReshard h = none ↔ v.gs.nextCount = none := by
  unfold routedReplicasForReshard
  cases v.gs.nextCount with
  | none => simp
  | some next =>
    simp only [v.unitReplicas_ne_nil, ↓reduceIte, reduceCtorEq, iff_false]
    split <;> simp

end View

end Shale
