import Shale.Foundation.Machine
import Shale.Replication.Envelope
import Shale.Replication.Fanout

/-!
# Resharding replicas online

The arbiter-driven split or merge of one generation at several replicas, as every node
drives it from its own reconcile loop (`multibackend_reshard_driver.go`,
`multibackend_reshard_copy.go`), running against dual-writes whose legs are applied on
the member nodes (`multibackend_reshard_route.go`). Membership is stable and no process
crashes: a `Cluster` fixes the placement, and the databases of the replica positions are
shared storage that outlives every mount.

`machine` interleaves the steps of all legs and of every node's driver, the background
mounts, and the evictions caused by failed applies. An apply is one transaction under
`applyMu` and so one step; a failed one leaves the database as it was.
-/

namespace Shale.Replicated

open Function (update)

structure Cluster where
  hash : Bytes → ShardHash
  wc : WriteConsistency
  nodes : List Nat
  r : Nat
  members : GenUnit → List Nat
  gen : Nat
  count : UnitCount
  next : UnitCount
  oneStep : next.n = 2 * count.n ∨ count.n = 2 * next.n
  replicated : 1 < r
  positions_le : r ≤ 256
  placed : ∀ gu, (members gu).length = r
  known : ∀ gu, ∀ n ∈ members gu, n ∈ nodes

namespace Cluster

variable (c : Cluster)

def isSplit : Bool := decide (c.next.n > c.count.n)

def bar : Nat := requiredWriteAcks c.wc c.r

def parentOf (key : Bytes) : GenUnit := { gen := c.gen, id := unitForHash (c.hash key) c.count }

def otherOf (key : Bytes) : GenUnit :=
  { gen := c.gen + 1, id := unitForHash (c.hash key) c.next }

def viewOf (n : Nat) (gs : GenState) : View :=
  { self := n, r := c.r, gs, joining := [], draining := [], locate := fun gu _ => c.members gu }

def positions (gu : GenUnit) : List ReplicaUnit :=
  (List.range c.r).map fun p => { unit := gu, replica := UInt8.ofNat p }

def hosts (n : Nat) (ru : ReplicaUnit) : Bool :=
  (c.members ru.unit)[ru.replica.toNat]? == some n

def owns (gen : Nat) (count : UnitCount) (n : Nat) (ru : ReplicaUnit) : Bool :=
  ru.unit.gen == gen && count.contains ru.unit.id &&
    ((c.members ru.unit).idxOf? n).map UInt8.ofNat == some ru.replica

def desired (gs : GenState) (n : Nat) (ru : ReplicaUnit) : Bool :=
  c.owns gs.gen gs.count n ru ||
    match gs.nextCount with
    | none => false
    | some next =>
      if next.n > gs.count.n then
        -- `splitChildrenVia`: the children, at the slot of their parent
        ru.unit.gen == gs.gen + 1 && next.contains ru.unit.id &&
          c.owns gs.gen gs.count n
            { ru with unit := { gen := gs.gen, id := ru.unit.id % (next.n / 2) } }
      else c.owns (gs.gen + 1) next n ru

end Cluster

@[simp] theorem unitReplicas_viewOf (c : Cluster) (n : Nat) (gs : GenState) (gu : GenUnit) :
    (c.viewOf n gs).unitReplicas gu = c.members gu := by
  have nonempty : c.members gu ≠ [] := by
    intro empty
    have placed := c.placed gu
    have replicated := c.replicated
    rw [empty] at placed
    simp only [List.length_nil] at placed
    omega
  simp [View.unitReplicas, Cluster.viewOf, nonempty]

/-- How far a leg has come on its member: `paused` tells whether it holds the read side of
the unit's pause, `handle` is the mounted backend it resolved. -/
inductive LegPhase where
  | sent
  | waiting
  | ready (paused : Bool)
  | bound (paused : Bool) (handle : Nat)
  | evicting (paused : Bool) (handle : Nat)
  | finishing (paused : Bool) (ok : Bool)
  | done (ok : Bool)
deriving DecidableEq

namespace LegPhase

def holdsPause : LegPhase → Bool
  | ready paused | bound paused _ | evicting paused _ | finishing paused _ => paused
  | sent | waiting | done _ => false

def unpaused : LegPhase → Bool
  | ready paused | bound paused _ => !paused
  | sent | waiting | evicting _ _ | finishing _ _ | done _ => false

def applied : LegPhase → Bool
  | finishing _ ok | done ok => ok
  | sent | waiting | ready _ | bound _ _ | evicting _ _ => false

end LegPhase

/-- A leg: where it goes, whether the ack bar counts it, and how far it has come. -/
structure Leg where
  route : RoutedReplica
  gates : Bool
  phase : LegPhase
deriving DecidableEq

/-- One fan-out of an envelope: an attempt of a client write, or a merge's forward. -/
structure Attempt where
  key : Bytes
  env : Envelope
  client : Bool
  bar : Nat
  legs : List Leg

def Attempt.acks (attempt : Attempt) : Nat :=
  (attempt.legs.filter fun leg => leg.gates && leg.phase == .done true).length

/-- One pass of `copyParentIntoChildren`: the slot, the handles of its two children, and
the entries still to apply; `dirty` once the pass has applied something. -/
structure CopyJob where
  slot : ReplicaUnit
  pass : Nat
  low : Nat
  high : Nat
  dirty : Bool
  rest : List (Bytes × Envelope)

/-- Where a node's driver stands. `final` marks the copy that `finalizeParent` runs under
the write side of the unit's pause; `todo` are the slots after the current one. -/
inductive DriverPhase where
  | idle
  | driving (todo : List ReplicaUnit)
  | finalizing (todo : List ReplicaUnit)
  | starting (final : Bool) (slot : ReplicaUnit) (pass : Nat) (todo : List ReplicaUnit)
  | copying (final : Bool) (job : CopyJob) (todo : List ReplicaUnit)
  | forwarding (final : Bool) (slot : ReplicaUnit) (rest : List (Bytes × Envelope))
      (waiting : Option Nat) (todo : List ReplicaUnit)
  | marking (slot : ReplicaUnit) (todo : List ReplicaUnit)
  | gating (slot : ReplicaUnit) (todo : List ReplicaUnit)
  | gatingHigh (unit : Nat) (todo : List ReplicaUnit)

def DriverPhase.finalSlot : DriverPhase → Option ReplicaUnit
  | starting true slot _ _ => some slot
  | copying true job _ => some job.slot
  | forwarding true slot _ _ _ => some slot
  | _ => none

/-- The cluster. `retired` records the parent slots whose last unmount was the retire of
`finalizeParent`, and `acked` the client writes acked so far. -/
structure State where
  view : Nat → GenState
  db : ReplicaUnit → Store Envelope
  mounts : Nat → AList (fun _ : ReplicaUnit => Nat)
  handles : Nat
  acquiring : Nat → List ReplicaUnit
  driver : Nat → DriverPhase
  attempts : List Attempt
  caughtUp : List (Nat × UInt8)
  cutOver : List Nat
  retired : Nat → ReplicaUnit → Bool
  acked : List (Bytes × Stamp)

namespace State

variable (s : State)

def hasReader (n k : Nat) : Bool :=
  s.attempts.any fun attempt => attempt.legs.any fun leg =>
    leg.route.member == n && leg.route.ru.unit.id == k && leg.phase.holdsPause

def writeLocked (n k : Nat) : Bool :=
  ((s.driver n).finalSlot.map fun slot => slot.unit.id) == some k

def setLeg (a i : Nat) (attempt : Attempt) (leg : Leg) (phase : LegPhase) : State :=
  { s with attempts :=
      s.attempts.set a { attempt with legs := attempt.legs.set i { leg with phase } } }

def setDriver (n : Nat) (phase : DriverPhase) : State :=
  { s with driver := update s.driver n phase }

def setView (n : Nat) (gs : GenState) : State :=
  { s with view := update s.view n gs }

def unmount (n : Nat) (ru : ReplicaUnit) : State :=
  { s with mounts := update s.mounts n ((s.mounts n).erase ru) }

def evictIfSame (n : Nat) (ru : ReplicaUnit) (handle : Nat) : State :=
  if (s.mounts n).lookup ru = some handle then s.unmount n ru else s

def applyAt (ru : ReplicaUnit) (key : Bytes) (env : Envelope) : State :=
  { s with db := update s.db ru ((s.db ru).applyIfNewer key env) }

def ownedParentSlots (n gen : Nat) : List ReplicaUnit :=
  (s.mounts n).keys.filter fun ru => ru.unit.gen == gen

end State

variable (c : Cluster)

/-- The answer of a backend or of the store to one request; `evict` tells whether the
error is one that drops the mount. -/
inductive Outcome where
  | ok
  | failed (evict : Bool)
deriving DecidableEq

def parentSlotMidSplit (gs : GenState) (ru : ReplicaUnit) : Bool :=
  gs.nextCount.isSome && ru.unit.gen == gs.gen

def legStep (a i : Nat) (outcome : Outcome) (s : State) : Option State :=
  match s.attempts[a]? with
  | none => none
  | some attempt =>
    match attempt.legs[i]? with
    | none => none
    | some leg =>
      let n := leg.route.member
      let ru := leg.route.ru
      match leg.phase with
      | .sent =>
        if parentSlotMidSplit (s.view n) ru then some (s.setLeg a i attempt leg .waiting)
        else some (s.setLeg a i attempt leg (.ready false))
      | .waiting =>
        if s.writeLocked n ru.unit.id then none
        else some (s.setLeg a i attempt leg (.ready true))
      | .ready paused =>
        match (s.mounts n).lookup ru with
        | none => some (s.setLeg a i attempt leg (.finishing paused false))
        | some handle => some (s.setLeg a i attempt leg (.bound paused handle))
      | .bound paused handle =>
        match outcome with
        | .ok =>
          some ((s.applyAt ru attempt.key attempt.env).setLeg a i attempt leg
            (.finishing paused true))
        | .failed true => some (s.setLeg a i attempt leg (.evicting paused handle))
        | .failed false => some (s.setLeg a i attempt leg (.finishing paused false))
      | .evicting paused handle =>
        some ((s.evictIfSame n ru handle).setLeg a i attempt leg
          (.finishing paused false))
      | .finishing _ ok => some (s.setLeg a i attempt leg (.done ok))
      | .done _ => none

def fanOut (key : Bytes) (env : Envelope) (client : Bool) (route : WriteRoute) : Attempt where
  key := key
  env := env
  client := client
  bar := route.bar
  legs := route.auth.map (fun leg => { route := leg, gates := true, phase := .sent }) ++
    route.supp.map (fun leg => { route := leg, gates := false, phase := .sent })

def survivorRoute (survivor : GenUnit) : WriteRoute where
  auth := legsAt survivor (c.members survivor)
  supp := []
  bar := requiredWriteAcks c.wc (legsAt survivor (c.members survivor)).length

def copyChild (slot : ReplicaUnit) (key : Bytes) : ReplicaUnit × Bool :=
  if unitForHash (c.hash key) c.next = slot.unit.id then
    ({ slot with unit := { gen := c.gen + 1, id := slot.unit.id } }, true)
  else ({ slot with unit := { gen := c.gen + 1, id := slot.unit.id + c.count.n } }, false)

def abandon (final : Bool) (todo : List ReplicaUnit) : DriverPhase :=
  if final then .idle else .driving todo

def completeSlot (n : Nat) (final : Bool) (slot : ReplicaUnit) (todo : List ReplicaUnit)
    (s : State) : State :=
  if final then
    { (s.unmount n slot).setDriver n (.finalizing todo) with
      retired := update s.retired n (update (s.retired n) slot true) }
  else s.setDriver n (.marking slot todo)

def startPass (n : Nat) (final : Bool) (slot : ReplicaUnit) (pass : Nat)
    (todo : List ReplicaUnit) (s : State) : State :=
  let entries := (s.db slot).scan
  let lowRU : ReplicaUnit := { slot with unit := { gen := c.gen + 1, id := slot.unit.id } }
  let highRU : ReplicaUnit :=
    { slot with unit := { gen := c.gen + 1, id := slot.unit.id + c.count.n } }
  match (s.mounts n).lookup slot with
  | none => s.setDriver n (abandon final todo)
  | some _ =>
    if c.isSplit then
      match (s.mounts n).lookup lowRU, (s.mounts n).lookup highRU with
      | some low, some high =>
        s.setDriver n (.copying final ⟨slot, pass, low, high, false, entries⟩ todo)
      | _, _ => s.setDriver n (abandon final todo)
    else s.setDriver n (.forwarding final slot entries none todo)

def copyEntry (n : Nat) (final : Bool) (job : CopyJob) (key : Bytes) (env : Envelope)
    (rest : List (Bytes × Envelope)) (todo : List ReplicaUnit) (outcome : Outcome)
    (s : State) : State :=
  let child := copyChild c job.slot key
  match outcome with
  | .ok =>
    let did := appliesOver ((s.db child.1).get key) env
    (s.applyAt child.1 key env).setDriver n
      (.copying final { job with dirty := job.dirty || did, rest } todo)
  | .failed true =>
    (s.evictIfSame n child.1 (if child.2 then job.low else job.high)).setDriver n
      (abandon final todo)
  | .failed false => s.setDriver n (abandon final todo)

def allSlotsCaughtUp (s : State) (k : Nat) : Bool :=
  (List.range c.r).all fun p => s.caughtUp.contains (k, UInt8.ofNat p)

/-- The cut-over gate after a caught-up marker: a split publishes the unit's marker, a
merge the markers of both parents of the survivor, the second in a step of its own. -/
def gate (n : Nat) (slot : ReplicaUnit) (todo : List ReplicaUnit) (outcome : Outcome)
    (s : State) : State :=
  let k := slot.unit.id
  let publish (unit : Nat) : List Nat :=
    if outcome = .ok then unit :: s.cutOver else s.cutOver
  if c.isSplit then
    if allSlotsCaughtUp c s k then
      { s.setDriver n (.driving todo) with cutOver := publish k }
    else s.setDriver n (.driving todo)
  else
    let low := k % c.next.n
    let high := low + c.next.n
    if allSlotsCaughtUp c s low && allSlotsCaughtUp c s high then
      { s.setDriver n (.gatingHigh high todo) with cutOver := publish low }
    else s.setDriver n (.driving todo)

def driveStep (n : Nat) (pick : ReplicaUnit) (outcome : Outcome) (s : State) : Option State :=
  match s.driver n with
  | .idle => none
  | .driving [] => some (s.setDriver n .idle)
  | .driving (first :: rest) =>
    let todo := first :: rest
    if pick ∈ todo then
      if (s.view n).hasCutOver pick.unit.id then
        some (s.setDriver n (.driving (todo.erase pick)))
      else some (s.setDriver n (.starting false pick 0 (todo.erase pick)))
    else none
  | .finalizing [] =>
    some ((s.setView n ((s.view n).advance c.next)).setDriver n .idle)
  | .finalizing (first :: rest) =>
    let todo := first :: rest
    if pick ∈ todo ∧ s.hasReader n pick.unit.id = false then
      some (s.setDriver n (.starting true pick 0 (todo.erase pick)))
    else none
  | .starting final slot pass todo =>
    match outcome with
    | .ok => some (startPass c n final slot pass todo s)
    | .failed _ => some (s.setDriver n (abandon final todo))
  | .copying final job todo =>
    match job.rest with
    | [] =>
      if job.dirty then
        if job.pass + 1 < copyMaxPasses then
          some (s.setDriver n (.starting final job.slot (job.pass + 1) todo))
        else some (s.setDriver n (abandon final todo))
      else some (completeSlot n final job.slot todo s)
    | (key, env) :: rest => some (copyEntry c n final job key env rest todo outcome s)
  | .forwarding final slot [] _ todo => some (completeSlot n final slot todo s)
  | .forwarding final slot ((key, env) :: rest) none todo =>
    let survivor : GenUnit := { gen := c.gen + 1, id := slot.unit.id % c.next.n }
    let attempt := fanOut key env false (survivorRoute c survivor)
    some { s.setDriver n
        (.forwarding final slot ((key, env) :: rest) (some s.attempts.length) todo) with
      attempts := s.attempts ++ [attempt] }
  | .forwarding final slot (_ :: rest) (some a) todo =>
    match outcome, s.attempts[a]? with
    | .ok, some attempt =>
      if attempt.bar ≤ attempt.acks then
        some (s.setDriver n (.forwarding final slot rest none todo))
      else none
    | _, _ => some (s.setDriver n (abandon final todo))
  | .marking slot todo =>
    if outcome = .ok then
      some { s.setDriver n (.gating slot todo) with
        caughtUp := (slot.unit.id, slot.replica) :: s.caughtUp }
    else some (s.setDriver n (.driving todo))
  | .gating slot todo => some (gate c n slot todo outcome s)
  | .gatingHigh unit todo =>
    if outcome = .ok then
      some { s.setDriver n (.driving todo) with cutOver := unit :: s.cutOver }
    else some (s.setDriver n (.driving todo))

/-- The steps of the cluster. -/
inductive Action where
  /-- A node starts an attempt of a write it has stamped. -/
  | write (n : Nat) (key : Bytes) (env : Envelope)
  | leg (a i : Nat) (outcome : Outcome)
  /-- The coordinator of an attempt has counted its acks. -/
  | ack (a : Nat)
  /-- A node enters the reshard that the arbiter agreed on. -/
  | enter (n : Nat)
  /-- A node observes the durable cut-over marker of a unit. -/
  | observe (n k : Nat)
  | beginDrive (n : Nat)
  | beginFinalize (n : Nat)
  | drive (n : Nat) (pick : ReplicaUnit) (outcome : Outcome)
  /-- Reconcile starts the background mount of a desired position. -/
  | startAcquire (n : Nat) (ru : ReplicaUnit)
  | finishAcquire (n : Nat) (ru : ReplicaUnit)
  /-- Reconcile releases a position that is no longer desired. -/
  | release (n : Nat) (ru : ReplicaUnit)
deriving DecidableEq

def State.isIdle (s : State) (n : Nat) : Bool :=
  match s.driver n with
  | .idle => true
  | _ => false

def step (action : Action) (s : State) : Option State :=
  match action with
  | .write n key env =>
    if n ∈ c.nodes then
      let route := (c.viewOf n (s.view n)).writeRoute c.wc (c.hash key)
      some { s with attempts := s.attempts ++ [fanOut key env true route] }
    else none
  | .leg a i outcome => legStep a i outcome s
  | .ack a =>
    match s.attempts[a]? with
    | none => none
    | some attempt =>
      if attempt.client ∧ attempt.bar ≤ attempt.acks then
        some { s with acked := (attempt.key, attempt.env.stamp) :: s.acked }
      else none
  | .enter n =>
    if s.isIdle n ∧ s.view n = GenState.steady c.gen c.count then
      some (s.setView n ((s.view n).enter c.next))
    else none
  | .observe n k =>
    if s.isIdle n ∧ (s.view n).nextCount.isSome ∧ (s.view n).count.contains k ∧
        k ∈ s.cutOver then
      some (s.setView n ((s.view n).cutOverUnit k))
    else none
  | .beginDrive n =>
    if s.isIdle n ∧ (s.view n).nextCount.isSome then
      some (s.setDriver n (.driving (s.ownedParentSlots n (s.view n).gen)))
    else none
  | .beginFinalize n =>
    if s.isIdle n ∧ (s.view n).allCutOver then
      some (s.setDriver n (.finalizing (s.ownedParentSlots n (s.view n).gen)))
    else none
  | .drive n pick outcome => driveStep c n pick outcome s
  | .startAcquire n ru =>
    if s.isIdle n ∧ c.desired (s.view n) n ru ∧ (s.mounts n).lookup ru = none then
      some { s with acquiring := update s.acquiring n (ru :: s.acquiring n) }
    else none
  | .finishAcquire n ru =>
    if ru ∈ s.acquiring n then
      some { s with
        mounts := update s.mounts n ((s.mounts n).insert ru s.handles)
        handles := s.handles + 1
        acquiring := update s.acquiring n ((s.acquiring n).erase ru)
        retired := update s.retired n (update (s.retired n) ru false) }
    else none
  | .release n ru =>
    if s.isIdle n ∧ c.desired (s.view n) n ru = false then some (s.unmount n ru) else none

def machine : Machine State Action := ⟨step c⟩

def copies (s : State) (gu : GenUnit) (key : Bytes) (stamp : Stamp) : Nat :=
  ((c.positions gu).filter fun ru => decide ((s.db ru).HoldsAtLeast key stamp)).length

/-- The cluster before the reshard: every node is steady at the old generation and mounts
only positions it owns, nothing is in flight, and every acked write has its copies. -/
structure Initial (s : State) : Prop where
  steady : ∀ n, s.view n = GenState.steady c.gen c.count
  idle : ∀ n, s.driver n = .idle
  noAttempts : s.attempts = []
  noMarkers : s.caughtUp = [] ∧ s.cutOver = []
  notRetired : ∀ n ru, s.retired n ru = false
  mounted : ∀ n, ∀ ru ∈ s.mounts n, c.owns c.gen c.count n ru = true
  noAcquire : ∀ n, s.acquiring n = []
  acked : ∀ write ∈ s.acked, c.bar ≤ copies c s (c.parentOf write.1) write.1 write.2

/-- Every node has advanced to the next generation. -/
def Finalized (s : State) : Prop := ∀ n ∈ c.nodes, (s.view n).gen = c.gen + 1

instance (s : State) : Decidable (Finalized c s) :=
  inferInstanceAs (Decidable (∀ n ∈ c.nodes, (s.view n).gen = c.gen + 1))

end Shale.Replicated
