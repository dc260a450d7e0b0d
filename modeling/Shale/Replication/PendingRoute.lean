import Shale.Reshard.SplitRouting
import Shale.Transaction.CasOwner

/-!
# Routing during a membership transition

`multibackend_pending_route.go` asks the coordinator for three placements of a unit, hands their
ids to `decide.Route` and translates the answer back into nodes. `routedReplicasForKey` names
each routed member once; `routedReplicasWithUnit` names a member once for every position it
holds. The reconcile of `multibackend_overlap.go` derives the positions a node keeps and
acquires from the same two placements.
-/

namespace Shale

open List

section Route

variable {p : Placements} {r : Nat}

def Placements.current (p : Placements) (r : Nat) : List Nat := p.currentSet (route p r).current

def Placements.pending (p : Placements) (r : Nat) : List Nat := p.pendingSet (route p r).pending

theorem Placements.current_eq : p.current r =
    p.currentSet (currentReplicaSet p.full.length p.joinerExcluded.length r) := by
  unfold current route
  dsimp only
  split <;> rfl

theorem Placements.pending_eq :
    p.pending r = p.pendingSet (pendingReplicaSet p.drainerExcluded.length) := by
  unfold pending route
  dsimp only
  split <;> rfl

theorem inTransition_route :
    (route p r).inTransition = !sameMembers (p.current r) (p.pending r) := by
  rw [Placements.current_eq, Placements.pending_eq]
  unfold route
  dsimp only
  split
  case isTrue same => rw [same, Bool.not_true]
  case isFalse apart => rw [Bool.eq_false_of_not_eq_true apart, Bool.not_false]

theorem routed_route : (route p r).routed =
    if (route p r).inTransition then unionMembers (p.current r) (p.pending r) else p.current r := by
  rw [inTransition_route, Placements.current_eq, Placements.pending_eq]
  unfold route
  dsimp only
  split
  case isTrue same => simp [same]
  case isFalse apart => simp [apart]

theorem stableR_route : (route p r).stableR = (p.current r).length := by
  rw [Placements.current_eq]
  unfold route
  dsimp only
  split <;> rfl

/-- The three placements of a unit, as `decide.Placements` promises them. -/
structure Placements.Valid (p : Placements) : Prop where
  placed : p.full ≠ []
  full : p.full.Nodup
  joinerExcluded : p.joinerExcluded.Nodup
  drainerExcluded : p.drainerExcluded.Nodup

theorem Placements.Valid.nodup_current (valid : p.Valid) : (p.current r).Nodup := by
  rw [current_eq]
  cases currentReplicaSet p.full.length p.joinerExcluded.length r with
  | fullRing => exact valid.full
  | joinerExcluded => exact valid.joinerExcluded

theorem Placements.Valid.nodup_pending (valid : p.Valid) : (p.pending r).Nodup := by
  rw [pending_eq]
  cases pendingReplicaSet p.drainerExcluded.length with
  | fullRing => exact valid.full
  | drainerExcluded => exact valid.drainerExcluded

theorem unionMembers_eq (current pending : List Nat) :
    unionMembers current pending = OrderedUnion.appendNew current pending := rfl

theorem sameMembers_iff {current pending : List Nat} (distinct : current.Nodup)
    (distinct' : pending.Nodup) :
    sameMembers current pending = true ↔ ∀ id, id ∈ current ↔ id ∈ pending := by
  simp only [sameMembers, Bool.and_eq_true, beq_iff_eq, all_eq_true, contains_iff_mem]
  constructor
  · rintro ⟨lengths, included⟩
    exact OrderedUnion.mem_iff_of_length_eq distinct lengths included
  · intro same
    have perm := (perm_ext_iff_of_nodup distinct distinct').mpr same
    exact ⟨perm.length_eq, fun id member => (same id).mp member⟩

theorem Placements.Valid.inTransition_iff (valid : p.Valid) :
    (route p r).inTransition = false ↔ ∀ id, id ∈ p.current r ↔ id ∈ p.pending r := by
  rw [inTransition_route, Bool.not_eq_false', sameMembers_iff valid.nodup_current
    valid.nodup_pending]

theorem prefix_routed : p.current r <+: (route p r).routed := by
  rw [routed_route]
  split
  · rw [unionMembers_eq]
    exact OrderedUnion.prefix_appendNew _ _
  · exact prefix_refl _

theorem Placements.Valid.nodup_routed (valid : p.Valid) : (route p r).routed.Nodup := by
  rw [routed_route]
  split
  · rw [unionMembers_eq]
    exact OrderedUnion.nodup_appendNew valid.nodup_current
  · exact valid.nodup_current

theorem Placements.Valid.mem_routed (valid : p.Valid) (id : Nat) :
    id ∈ (route p r).routed ↔ id ∈ p.current r ∨ id ∈ p.pending r := by
  rw [routed_route]
  by_cases moving : (route p r).inTransition = true
  · rw [if_pos moving, unionMembers_eq, OrderedUnion.mem_appendNew]
  · have same := valid.inTransition_iff.mp (Bool.eq_false_of_not_eq_true moving)
    rw [if_neg moving, ← same id, or_self]

theorem min_le_current : min r p.full.length ≤ (p.current r).length := by
  rw [Placements.current_eq]
  unfold currentReplicaSet
  split
  · exact Nat.min_le_right _ _
  case isFalse enough =>
    change min r p.full.length ≤ p.joinerExcluded.length
    omega

theorem Placements.Valid.current_pos (valid : p.Valid) : 1 ≤ (p.current r).length := by
  rw [current_eq]
  have full := length_pos_iff.mpr valid.placed
  exact full.trans_le (length_full_le_current p r)

end Route

structure CoordNode where
  id : Nat
  addr : String
deriving DecidableEq, Repr

def nodeIDs (ms : List CoordNode) : List Nat := ms.map CoordNode.id

def findMember (ms : List CoordNode) (id : Nat) : Option CoordNode := ms.find? fun m => m.id == id

def membersByID (ids : List Nat) (a b : List CoordNode) : List CoordNode :=
  ids.filterMap fun id => (findMember a id).or (findMember b id)

/-- `unitPlacements`, without the projection to ids that the three lists determine. -/
structure UnitPlacements where
  full : List CoordNode
  joinerExcluded : List CoordNode
  drainerExcluded : List CoordNode

structure RoutedNode where
  member : CoordNode
  ru : ReplicaUnit

def RoutedNode.leg (routed : RoutedNode) : RoutedReplica := ⟨routed.member.id, routed.ru⟩

def containsRoutedReplica (rs : List RoutedNode) (want : RoutedNode) : Bool :=
  rs.any fun r => r.member.id == want.member.id && r.ru == want.ru

def withUnit (gu : GenUnit) (members : List CoordNode) : List RoutedNode :=
  members.mapIdx fun i member => { member, ru := { unit := gu, replica := UInt8.ofNat i } }

namespace UnitPlacements

variable (p : UnitPlacements) (r : Nat) (gu : GenUnit)

def ids : Placements where
  full := nodeIDs p.full
  joinerExcluded := nodeIDs p.joinerExcluded
  drainerExcluded := nodeIDs p.drainerExcluded

def current (rt : Routing) : List CoordNode :=
  match rt.current with
  | .fullRing => p.full
  | .joinerExcluded => p.joinerExcluded

def pending (rt : Routing) : List CoordNode :=
  match rt.pending with
  | .fullRing => p.full
  | .drainerExcluded => p.drainerExcluded

def routedReplicasForKey : List CoordNode × Nat :=
  let rt := route p.ids r
  if !rt.inTransition then (p.current rt, rt.stableR)
  else (membersByID rt.routed (p.current rt) (p.pending rt), rt.stableR)

def routedReplicasWithUnit : List RoutedNode × Nat :=
  let rt := route p.ids r
  if !rt.inTransition then (withUnit gu (p.current rt), rt.stableR)
  else
    ((withUnit gu (p.pending rt)).foldl
      (fun out rr => if containsRoutedReplica out rr then out else out ++ [rr])
      (withUnit gu (p.current rt)), rt.stableR)

end UnitPlacements

section Nodes

variable {p : UnitPlacements} {r : Nat} {gu : GenUnit}

theorem nodeIDs_current : nodeIDs (p.current (route p.ids r)) = p.ids.current r := by
  unfold UnitPlacements.current Placements.current
  cases (route p.ids r).current <;> rfl

theorem nodeIDs_pending : nodeIDs (p.pending (route p.ids r)) = p.ids.pending r := by
  unfold UnitPlacements.pending Placements.pending
  cases (route p.ids r).pending <;> rfl

variable {id : Nat}

variable {ms : List CoordNode}

theorem findMember_id (listed : id ∈ nodeIDs ms) :
    ∃ m, findMember ms id = some m ∧ m.id = id := by
  obtain ⟨m, mem, rfl⟩ := mem_map.mp listed
  cases found : findMember ms m.id with
  | none => simpa using List.find?_eq_none.mp found m mem
  | some other => exact ⟨other, rfl, by simpa using List.find?_some found⟩

theorem findMember_none (unlisted : id ∉ nodeIDs ms) :
    findMember ms id = none := by
  refine List.find?_eq_none.mpr ?_
  intro m mem same
  exact unlisted (mem_map.mpr ⟨m, mem, by simpa using same⟩)

theorem nodeIDs_membersByID {ids : List Nat} {a b : List CoordNode}
    (covered : ∀ id ∈ ids, id ∈ nodeIDs a ∨ id ∈ nodeIDs b) :
    nodeIDs (membersByID ids a b) = ids := by
  induction ids with
  | nil => rfl
  | cons id rest ih =>
    have resolved : ∃ m, (findMember a id).or (findMember b id) = some m ∧ m.id = id := by
      by_cases first : id ∈ nodeIDs a
      · obtain ⟨m, found, same⟩ := findMember_id first
        exact ⟨m, by rw [found, Option.some_or], same⟩
      · obtain ⟨m, found, same⟩ := findMember_id ((covered id (by simp)).resolve_left first)
        exact ⟨m, by rw [findMember_none first, Option.none_or, found], same⟩
    obtain ⟨m, found, same⟩ := resolved
    have later := ih fun other member => covered other (by simp [member])
    simp only [membersByID, nodeIDs] at later
    simp [membersByID, nodeIDs, found, same, later]

theorem map_leg_withUnit (gu : GenUnit) (members : List CoordNode) :
    (withUnit gu members).map RoutedNode.leg = legsAt gu (nodeIDs members) := by
  refine ext_getElem? fun i => ?_
  simp only [withUnit, legsAt, nodeIDs, List.getElem?_map, List.getElem?_mapIdx]
  cases members[i]? <;> rfl

theorem nodeIDs_routedReplicasForKey (valid : p.ids.Valid) :
    nodeIDs (p.routedReplicasForKey r).1 = (route p.ids r).routed := by
  unfold UnitPlacements.routedReplicasForKey
  dsimp only
  rw [routed_route]
  by_cases moving : (route p.ids r).inTransition = true
  · simp only [moving, Bool.not_true, Bool.false_eq_true, ↓reduceIte]
    refine nodeIDs_membersByID ?_
    intro id mem
    rw [nodeIDs_current, nodeIDs_pending, ← valid.mem_routed, routed_route, if_pos moving]
    exact mem
  · simp [moving, nodeIDs_current]

theorem map_leg_routedReplicasWithUnit : (p.routedReplicasWithUnit r gu).1.map RoutedNode.leg =
    if (route p.ids r).inTransition then
      View.addLegs (legsAt gu (p.ids.current r)) (legsAt gu (p.ids.pending r))
    else legsAt gu (p.ids.current r) := by
  have dedup : ∀ (out more : List RoutedNode),
      more.foldl (fun out rr => if containsRoutedReplica out rr then out else out ++ [rr]) out =
        OrderedUnion.appendNewBy RoutedNode.leg out more := by
    intro out more
    have same : ∀ a b : RoutedNode,
        (a.member.id == b.member.id && a.ru == b.ru) = (a.leg == b.leg) := by
      intro a b
      rw [Bool.eq_iff_iff]
      simp [RoutedNode.leg]
    simp only [OrderedUnion.appendNewBy, containsRoutedReplica, same]
  unfold UnitPlacements.routedReplicasWithUnit
  by_cases moving : (route p.ids r).inTransition = true
  · simp only [moving, Bool.not_true, Bool.false_eq_true, ↓reduceIte]
    rw [dedup, OrderedUnion.map_appendNewBy, map_leg_withUnit, map_leg_withUnit, nodeIDs_current,
      nodeIDs_pending, View.addLegs_eq]
  · simp only [moving, Bool.not_false, ↓reduceIte, Bool.false_eq_true]
    rw [map_leg_withUnit, nodeIDs_current]

theorem mem_members_legsAt {gu : GenUnit} {members : List Nat} :
    id ∈ (legsAt gu members).map RoutedReplica.member ↔ id ∈ members := by
  simp only [mem_map, mem_legsAt]
  constructor
  · rintro ⟨leg, ⟨i, found, -⟩, rfl⟩
    exact mem_of_getElem? found
  · intro member
    obtain ⟨i, found⟩ := mem_iff_getElem?.mp member
    exact ⟨⟨id, ⟨gu, UInt8.ofNat i⟩⟩, ⟨i, found, rfl⟩, rfl⟩

theorem mem_routedReplicasWithUnit (valid : p.ids.Valid) (id : Nat) :
    id ∈ (p.routedReplicasWithUnit r gu).1.map (fun rr => rr.member.id) ↔
      id ∈ (route p.ids r).routed := by
  have members : (p.routedReplicasWithUnit r gu).1.map (fun rr => rr.member.id) =
      ((p.routedReplicasWithUnit r gu).1.map RoutedNode.leg).map RoutedReplica.member := by
    rw [map_map]
    rfl
  rw [members, map_leg_routedReplicasWithUnit, valid.mem_routed]
  by_cases moving : (route p.ids r).inTransition = true
  · have first : id ∈ p.ids.current r ↔
        id ∈ (legsAt gu (p.ids.current r)).map RoutedReplica.member := mem_members_legsAt.symm
    have second : id ∈ p.ids.pending r ↔
        id ∈ (legsAt gu (p.ids.pending r)).map RoutedReplica.member := mem_members_legsAt.symm
    rw [if_pos moving, first, second]
    simp only [mem_map, View.mem_addLegs, or_and_right, exists_or]
  · have same := valid.inTransition_iff.mp (Bool.eq_false_of_not_eq_true moving)
    rw [if_neg moving, mem_members_legsAt, ← same id, or_self]

end Nodes

/-- **The laws of routing between two placements.** The routed list is current and then what
pending adds; the ack bar is the size of current, positive and within reach; a unit is between two
placements exactly if they differ as sets; and both resolvers route the same members. -/
theorem pending_routing_laws (p : UnitPlacements) (r : Nat) (gu : GenUnit) (valid : p.ids.Valid) :
    p.ids.current r <+: (route p.ids r).routed ∧
      (route p.ids r).routed.Nodup ∧
      (∀ id, id ∈ (route p.ids r).routed ↔ id ∈ p.ids.current r ∨ id ∈ p.ids.pending r) ∧
      (route p.ids r).stableR = (p.ids.current r).length ∧
      min r p.full.length ≤ (route p.ids r).stableR ∧
      1 ≤ (route p.ids r).stableR ∧
      (∀ wc, 1 ≤ requiredWriteAcks wc (route p.ids r).stableR ∧
        requiredWriteAcks wc (route p.ids r).stableR ≤ (route p.ids r).routed.length) ∧
      ((route p.ids r).inTransition = false ↔
        ∀ id, id ∈ p.ids.current r ↔ id ∈ p.ids.pending r) ∧
      ∀ id, id ∈ (p.routedReplicasWithUnit r gu).1.map (fun rr => rr.member.id) ↔
        id ∈ nodeIDs (p.routedReplicasForKey r).1 := by
  have floor : min r p.full.length ≤ (p.ids.current r).length := by
    simpa [UnitPlacements.ids, nodeIDs] using min_le_current (p := p.ids) (r := r)
  have positive := valid.current_pos (r := r)
  have fits : (p.ids.current r).length ≤ (route p.ids r).routed.length :=
    prefix_routed.length_le
  refine ⟨prefix_routed, valid.nodup_routed, valid.mem_routed, stableR_route, ?_, ?_, ?_,
    valid.inTransition_iff, ?_⟩
  · rw [stableR_route]
    exact floor
  · rw [stableR_route]
    exact positive
  · intro wc
    rw [stableR_route]
    refine ⟨requiredWriteAcks_pos positive, le_trans ?_ fits⟩
    cases wc <;> simp only [requiredWriteAcks] <;> omega
  · intro id
    rw [mem_routedReplicasWithUnit valid, nodeIDs_routedReplicasForKey valid]

def leaving : UnitPlacements where
  full := [⟨1, "a"⟩, ⟨2, "b"⟩]
  joinerExcluded := [⟨1, "a"⟩, ⟨2, "b"⟩]
  drainerExcluded := [⟨3, "c"⟩, ⟨2, "b"⟩]

theorem valid_leaving : leaving.ids.Valid :=
  ⟨by decide, by decide, by decide, by decide⟩

theorem pending_routing_laws_leaving :
    (route leaving.ids 2).routed = [1, 2, 3] ∧ (route leaving.ids 2).inTransition = true ∧
      ∀ wc, 1 ≤ requiredWriteAcks wc (route leaving.ids 2).stableR ∧
        requiredWriteAcks wc (route leaving.ids 2).stableR ≤ 3 :=
  ⟨by decide, by decide, (pending_routing_laws leaving 2 ⟨0, 0⟩ valid_leaving).2.2.2.2.2.2.1⟩

def placedBy (gs : GenState) (gu : GenUnit) : Option GenUnit :=
  if gu.gen = gs.gen then if gu.id < gs.count.n then some gu else none
  else if gu.gen = gs.gen + 1 then
    match gs.nextCount with
    | none => none
    | some next =>
      if gu.id < next.n then
        if next.n > gs.count.n then (parentUnit gu.id next).toOption.map (⟨gs.gen, ·⟩)
        else some gu
      else none
  else none

namespace View

variable (v : View)

def pendingUnitReplicas (gu : GenUnit) : List Nat :=
  if v.draining = [] then v.unitReplicas gu
  else
    match pendingReplicaSet (v.locate gu v.draining).length with
    | .fullRing => v.unitReplicas gu
    | .drainerExcluded => v.locate gu v.draining

def splitChildrenAt (replicaAt : GenUnit → List Nat) (next : UnitCount) : List ReplicaUnit :=
  (List.range next.n).filterMap fun child =>
    match parentUnit child next with
    | .error _ => none
    | .ok parent =>
      ((replicaAt ⟨v.gs.gen, parent⟩).idxOf? v.self).map fun slot =>
        ⟨⟨v.gs.gen + 1, child⟩, UInt8.ofNat slot⟩

def desiredReplicaUnitsVia (replicaAt : GenUnit → List Nat) : List ReplicaUnit :=
  v.ownedReplicaUnitsVia replicaAt v.gs.gen v.gs.count ++
    match v.gs.nextCount with
    | none => []
    | some next =>
      if next.n > v.gs.count.n then v.splitChildrenAt replicaAt next
      else v.ownedReplicaUnitsVia replicaAt (v.gs.gen + 1) next

theorem desiredReplicaUnits_eq :
    v.desiredReplicaUnits = v.desiredReplicaUnitsVia v.unitReplicas := rfl

def desiredCurrentReplicaUnits : List ReplicaUnit :=
  if v.joining = [] then v.desiredReplicaUnits
  else v.desiredReplicaUnitsVia v.currentUnitReplicas

def desiredPendingReplicaUnits : List ReplicaUnit :=
  if v.draining = [] then v.desiredReplicaUnits
  else v.desiredReplicaUnitsVia v.pendingUnitReplicas

variable {v} {gu : GenUnit} {ru : ReplicaUnit}

theorem currentMembers_eq : v.currentMembers gu = v.currentUnitReplicas gu := by
  change (v.placementsForUnit gu).current v.r = _
  rw [Placements.current_eq, currentUnitReplicas]
  by_cases stable : v.joining = []
  · have joiner : (v.placementsForUnit gu).joinerExcluded = v.unitReplicas gu := if_pos stable
    rw [if_pos stable]
    cases currentReplicaSet _ _ _ with
    | fullRing => rfl
    | joinerExcluded => exact joiner
  · have joiner : (v.placementsForUnit gu).joinerExcluded = v.locate gu v.joining :=
      if_neg stable
    have full : (v.placementsForUnit gu).full = v.unitReplicas gu := rfl
    rw [if_neg stable, joiner, full]
    cases currentReplicaSet _ _ _ with
    | fullRing => rfl
    | joinerExcluded => exact joiner

theorem pendingMembers_eq : v.pendingMembers gu = v.pendingUnitReplicas gu := by
  change (v.placementsForUnit gu).pending v.r = _
  rw [Placements.pending_eq, pendingUnitReplicas]
  by_cases stable : v.draining = []
  · have drainer : (v.placementsForUnit gu).drainerExcluded = v.unitReplicas gu := if_pos stable
    rw [if_pos stable]
    cases pendingReplicaSet _ with
    | fullRing => rfl
    | drainerExcluded => exact drainer
  · have drainer : (v.placementsForUnit gu).drainerExcluded = v.locate gu v.draining :=
      if_neg stable
    rw [if_neg stable, drainer]
    cases pendingReplicaSet _ with
    | fullRing => rfl
    | drainerExcluded => exact drainer

theorem inTransition_eq :
    v.inTransition gu = !sameMembers (v.currentMembers gu) (v.pendingMembers gu) :=
  inTransition_route

variable {replicaAt : GenUnit → List Nat}

theorem mem_splitChildrenAt {next : UnitCount} :
    ru ∈ v.splitChildrenAt replicaAt next ↔ ru.unit.gen = v.gs.gen + 1 ∧ ru.unit.id < next.n ∧
      ∃ parent, parentUnit ru.unit.id next = .ok parent ∧
        ((replicaAt ⟨v.gs.gen, parent⟩).idxOf? v.self).map UInt8.ofNat = some ru.replica := by
  obtain ⟨⟨g, id⟩, replica⟩ := ru
  simp only [splitChildrenAt, mem_filterMap, mem_range]
  constructor
  · rintro ⟨child, below, made⟩
    split at made
    · cases made
    case h_2 parent found =>
      obtain ⟨slot, index, same⟩ := Option.map_eq_some_iff.mp made
      cases same
      exact ⟨rfl, below, parent, found, Option.map_eq_some_iff.mpr ⟨slot, index, rfl⟩⟩
  · rintro ⟨rfl, below, parent, found, held⟩
    obtain ⟨slot, index, rfl⟩ := Option.map_eq_some_iff.mp held
    refine ⟨id, below, ?_⟩
    rw [found]
    exact Option.map_eq_some_iff.mpr ⟨slot, index, rfl⟩

/-- What a reshard in flight adds to the positions of a node. -/
def nextReplicaUnitsVia (v : View) (replicaAt : GenUnit → List Nat) : List ReplicaUnit :=
  match v.gs.nextCount with
  | none => []
  | some next =>
    if next.n > v.gs.count.n then v.splitChildrenAt replicaAt next
    else v.ownedReplicaUnitsVia replicaAt (v.gs.gen + 1) next

theorem gen_of_mem_nextReplicaUnitsVia (mem : ru ∈ v.nextReplicaUnitsVia replicaAt) :
    ru.unit.gen = v.gs.gen + 1 := by
  unfold nextReplicaUnitsVia at mem
  split at mem
  · cases mem
  · split at mem
    · exact (mem_splitChildrenAt.mp mem).1
    · exact (mem_ownedReplicaUnitsVia.mp mem).1

theorem mem_desiredReplicaUnitsVia_iff :
    ru ∈ v.desiredReplicaUnitsVia replicaAt ↔ ∃ home, placedBy v.gs ru.unit = some home ∧
      ((replicaAt home).idxOf? v.self).map UInt8.ofNat = some ru.replica := by
  change ru ∈ _ ++ v.nextReplicaUnitsVia replicaAt ↔ _
  rw [mem_append, mem_ownedReplicaUnitsVia]
  unfold placedBy
  by_cases live : ru.unit.gen = v.gs.gen
  · have earlier : ru ∉ v.nextReplicaUnitsVia replicaAt := by
      intro mem
      have := gen_of_mem_nextReplicaUnitsVia mem
      omega
    by_cases below : ru.unit.id < v.gs.count.n <;> simp [live, below, earlier]
  cases entered : v.gs.nextCount with
  | none => simp [nextReplicaUnitsVia, live, entered]
  | some next =>
    have parents : ∀ parent, (parentUnit ru.unit.id next).toOption = some parent ↔
        parentUnit ru.unit.id next = .ok parent := by
      cases parentUnit ru.unit.id next <;> simp [Except.toOption]
    by_cases later : ru.unit.gen = v.gs.gen + 1 <;> by_cases below : ru.unit.id < next.n <;>
      by_cases grows : next.n > v.gs.count.n <;>
      simp [nextReplicaUnitsVia, mem_splitChildrenAt, mem_ownedReplicaUnitsVia, *]

theorem mem_desiredCurrentReplicaUnits :
    ru ∈ v.desiredCurrentReplicaUnits ↔ ∃ home, placedBy v.gs ru.unit = some home ∧
      ((v.currentMembers home).idxOf? v.self).map UInt8.ofNat = some ru.replica := by
  simp only [currentMembers_eq]
  unfold desiredCurrentReplicaUnits
  split
  case isTrue stable =>
    simp only [desiredReplicaUnits_eq, mem_desiredReplicaUnitsVia_iff, currentUnitReplicas,
      if_pos stable]
  case isFalse => exact mem_desiredReplicaUnitsVia_iff

theorem mem_desiredPendingReplicaUnits :
    ru ∈ v.desiredPendingReplicaUnits ↔ ∃ home, placedBy v.gs ru.unit = some home ∧
      ((v.pendingMembers home).idxOf? v.self).map UInt8.ofNat = some ru.replica := by
  simp only [pendingMembers_eq]
  unfold desiredPendingReplicaUnits
  split
  case isTrue stable =>
    simp only [desiredReplicaUnits_eq, mem_desiredReplicaUnitsVia_iff, pendingUnitReplicas,
      if_pos stable]
  case isFalse => exact mem_desiredReplicaUnitsVia_iff

theorem unitReplicas_self (populated : v.locate gu [] ≠ []) (node : Nat) :
    { v with self := node }.unitReplicas gu = v.unitReplicas gu := by
  simp [unitReplicas, populated]

end View

variable {members : List Nat} {node : Nat}

theorem idxOf?_eq_some_iff_getElem? (distinct : members.Nodup) {i : Nat} :
    members.idxOf? node = some i ↔ members[i]? = some node := by
  rw [List.idxOf?_eq_some_iff]
  constructor
  · rintro ⟨below, same, -⟩
    rw [List.getElem?_eq_getElem below]
    simpa using same
  · intro found
    obtain ⟨below, same⟩ := List.getElem?_eq_some_iff.mp found
    refine ⟨below, by simp [same], ?_⟩
    intro j earlier equal
    have := (distinct.getElem_inj_iff).mp (show members[j] = members[i] by simp_all)
    omega

theorem mem_legsAt_iff_idxOf (distinct : members.Nodup) {ru : ReplicaUnit} :
    ⟨node, ru⟩ ∈ legsAt ru.unit members ↔
      (members.idxOf? node).map UInt8.ofNat = some ru.replica := by
  obtain ⟨gu, replica⟩ := ru
  rw [mem_legsAt, Option.map_eq_some_iff]
  simp only [ReplicaUnit.mk.injEq, true_and]
  refine exists_congr fun i => and_congr ?_ eq_comm
  exact (idxOf?_eq_some_iff_getElem? distinct).symm

namespace View

variable {v : View} {gu : GenUnit}

/-- What the coordinator's placements are: nobody is named twice, and somebody is named. -/
structure Places (v : View) : Prop where
  distinct : ∀ gu excluded, (v.locate gu excluded).Nodup
  populated : ∀ gu, v.locate gu [] ≠ []

/-- The pairs of `gu` that the two placements of `home` give. -/
def LegOf (v : View) (gu home : GenUnit) (leg : RoutedReplica) : Prop :=
  leg ∈ legsAt gu (v.currentMembers home) ∨ leg ∈ legsAt gu (v.pendingMembers home)

theorem LegOf.unit_eq {home : GenUnit} {leg : RoutedReplica} (of : v.LegOf gu home leg) :
    leg.ru.unit = gu := by
  rcases of with of | of <;> obtain ⟨i, -, same⟩ := mem_legsAt.mp of <;> rw [same]

theorem Places.desired_iff (places : v.Places) {node : Nat} {ru : ReplicaUnit} :
    ru ∈ { v with self := node }.desiredCurrentReplicaUnits ∨
        ru ∈ { v with self := node }.desiredPendingReplicaUnits ↔
      ∃ home, placedBy v.gs ru.unit = some home ∧ v.LegOf ru.unit home ⟨node, ru⟩ := by
  have full : ∀ gu, (v.unitReplicas gu).Nodup := by
    intro gu
    rw [unitReplicas, if_neg (places.populated gu)]
    exact places.distinct gu []
  have own := fun gu => unitReplicas_self (places.populated gu) node
  have current : ∀ gu, { v with self := node }.currentMembers gu = v.currentMembers gu := by
    intro gu
    rw [currentMembers_eq, currentMembers_eq, currentUnitReplicas, currentUnitReplicas, own]
  have pending : ∀ gu, { v with self := node }.pendingMembers gu = v.pendingMembers gu := by
    intro gu
    rw [pendingMembers_eq, pendingMembers_eq, pendingUnitReplicas, pendingUnitReplicas, own]
  have distinct : ∀ gu, (v.currentMembers gu).Nodup := by
    intro gu
    rw [currentMembers_eq, currentUnitReplicas]
    repeat' split
    all_goals first | exact full gu | exact places.distinct _ _
  have distinct' : ∀ gu, (v.pendingMembers gu).Nodup := by
    intro gu
    rw [pendingMembers_eq, pendingUnitReplicas]
    repeat' split
    all_goals first | exact full gu | exact places.distinct _ _
  simp only [mem_desiredCurrentReplicaUnits, mem_desiredPendingReplicaUnits, current, pending,
    LegOf, mem_legsAt_iff_idxOf (distinct _), mem_legsAt_iff_idxOf (distinct' _), ← exists_or,
    ← and_or_left]

/-- **Every current and pending position is routed**, exactly if placements of the same members
give nobody another position; and the routed pairs are those that the reconcile of each node keeps
or acquires, exactly if the unit it places this one by has the same pairs besides. -/
theorem routed_positions_exact_iff (v : View) (gu : GenUnit) (places : v.Places) :
    ((∀ leg, leg ∈ (v.routedReplicasWithUnit gu).1 ↔ v.LegOf gu gu leg) ↔
      (sameMembers (v.currentMembers gu) (v.pendingMembers gu) = true →
        ∀ j member, (v.pendingMembers gu)[j]? = some member →
          ∃ i, (v.currentMembers gu)[i]? = some member ∧ UInt8.ofNat i = UInt8.ofNat j)) ∧
    ((∀ leg, leg ∈ (v.routedReplicasWithUnit gu).1 ↔ v.LegOf gu gu leg) →
      ((∀ node ru, ru.unit = gu → (⟨node, ru⟩ ∈ (v.routedReplicasWithUnit gu).1 ↔
          ru ∈ { v with self := node }.desiredCurrentReplicaUnits ∨
            ru ∈ { v with self := node }.desiredPendingReplicaUnits)) ↔
        ∃ home, placedBy v.gs gu = some home ∧
          ∀ leg, v.LegOf gu gu leg ↔ v.LegOf gu home leg)) := by
  refine ⟨?_, fun routed => ⟨fun reconciled => ?_, ?_⟩⟩
  · unfold routedReplicasWithUnit
    rw [inTransition_eq]
    cases sameMembers (v.currentMembers gu) (v.pendingMembers gu) with
    | false => simp [mem_addLegs, LegOf]
    | true =>
      simp only [Bool.not_true, Bool.false_eq_true, ↓reduceIte, LegOf, iff_self_or, mem_legsAt,
        true_imp_iff]
      constructor
      · intro covered j member found
        obtain ⟨i, here, same⟩ := covered ⟨member, ⟨gu, UInt8.ofNat j⟩⟩ ⟨j, found, rfl⟩
        exact ⟨i, here, (ReplicaUnit.mk.inj same).2.symm⟩
      · rintro covered ⟨member, ru⟩ ⟨j, found, rfl⟩
        obtain ⟨i, here, same⟩ := covered j member found
        exact ⟨i, here, by rw [same]⟩
  · have desired : ∀ leg, v.LegOf gu gu leg →
        ∃ home, placedBy v.gs gu = some home ∧ v.LegOf gu home leg := by
      rintro ⟨node, ru⟩ leg
      obtain rfl := leg.unit_eq
      exact places.desired_iff.mp ((reconciled node ru rfl).mp ((routed _).mpr leg))
    obtain ⟨first, rest, members⟩ := exists_cons_of_ne_nil (v.currentMembers_ne_nil gu)
    obtain ⟨home, placed, -⟩ := desired ⟨first, ⟨gu, 0⟩⟩
      (.inl (mem_legsAt.mpr ⟨0, by simp [members], rfl⟩))
    refine ⟨home, placed, fun leg => ⟨fun own => ?_, fun other => ?_⟩⟩
    · obtain ⟨home', placed', there⟩ := desired leg own
      cases placed.symm.trans placed'
      exact there
    · obtain ⟨node, ru⟩ := leg
      obtain rfl := other.unit_eq
      exact (routed _).mp
        ((reconciled node ru rfl).mpr (places.desired_iff.mpr ⟨home, placed, other⟩))
  · rintro ⟨home, placed, same⟩ node ru rfl
    rw [routed, same, places.desired_iff, placed]
    simp

/-- Nodes 1, 2 and 3 hold a unit at two positions, and node 3 is draining. -/
def drainingView (self : Nat) (full remaining : List Nat) : View where
  self := self
  r := 2
  gs := GenState.steady 0 .one
  joining := []
  draining := [3]
  locate := fun _ excluded => if excluded = [] then full else remaining

theorem places_drainingView {self : Nat} {full remaining : List Nat} (distinct : full.Nodup)
    (distinct' : remaining.Nodup) (populated : full ≠ []) :
    (drainingView self full remaining).Places := by
  refine ⟨fun gu excluded => ?_, fun gu => populated⟩
  simp only [drainingView]
  split
  · exact distinct
  · exact distinct'

theorem routed_positions_exact_drain :
    let v := drainingView 2 [3, 2] [2, 1]
    (∀ leg, leg ∈ (v.routedReplicasWithUnit ⟨0, 0⟩).1 ↔ v.LegOf ⟨0, 0⟩ ⟨0, 0⟩ leg) ∧
      ∀ node ru, ru.unit = ⟨0, 0⟩ → (⟨node, ru⟩ ∈ (v.routedReplicasWithUnit ⟨0, 0⟩).1 ↔
        ru ∈ { v with self := node }.desiredCurrentReplicaUnits ∨
          ru ∈ { v with self := node }.desiredPendingReplicaUnits) := by
  intro v
  obtain ⟨routed, reconciled⟩ := routed_positions_exact_iff v ⟨0, 0⟩
    (places_drainingView (by decide) (by decide) (by decide))
  have both := routed.mpr fun same => absurd same (by decide)
  exact ⟨both, (reconciled both).mpr ⟨⟨0, 0⟩, by decide, fun _ => Iff.rfl⟩⟩

def splitHome : View where
  self := 3
  r := 2
  gs := { gen := 0, count := .one, nextCount := some .two, cutOver := {0} }
  joining := []
  draining := []
  locate := fun gu _ => if gu.gen = 0 then [1, 2] else [2, 3]

/-- Once node 3 is gone, the other two hold their unit at each other's position, and node 2
acquires position 0, which nothing is routed to. And of a child that has cut over node 3 is routed
position 1, which its reconcile does not desire. -/
theorem reordered_position_unrouted :
    (drainingView 2 [1, 2] [2, 1]).currentMembers ⟨0, 0⟩ = [1, 2] ∧
      (drainingView 2 [1, 2] [2, 1]).pendingMembers ⟨0, 0⟩ = [2, 1] ∧
      ⟨⟨0, 0⟩, 0⟩ ∈ (drainingView 2 [1, 2] [2, 1]).desiredPendingReplicaUnits ∧
      ⟨2, ⟨⟨0, 0⟩, 0⟩⟩ ∉ ((drainingView 2 [1, 2] [2, 1]).routedReplicasWithUnit ⟨0, 0⟩).1 ∧
      splitHome.gs.resolveGenUnit 0 = ⟨1, 0⟩ ∧
      ⟨3, ⟨⟨1, 0⟩, 1⟩⟩ ∈ (splitHome.routedReplicasWithUnit ⟨1, 0⟩).1 ∧
      ⟨⟨1, 0⟩, 1⟩ ∉ splitHome.desiredCurrentReplicaUnits ∧
      ⟨⟨1, 0⟩, 1⟩ ∉ splitHome.desiredPendingReplicaUnits := by
  decide

end View

end Shale
