import Shale.Reshard.SingleNode

/-!
# Splitting at one replica across nodes

The arbiter-driven split of `multibackend_reshard_r1.go`, where units store raw bytes and
so nothing orders a write across two generations. While a split is in flight every key is
placed at the owner of its old unit; that owner copies the unit into its children under
the pause, publishes the durable cut-over marker, and then flips its own routing. Every
node advances once it has observed all the markers.

The databases, the cut-over markers and the `__cluster/init` marker are durable and
shared. A process may crash at any step, which loses its mounts, its routing state, its
driver and its calls; a restarted one adopts the init marker and serves before it has
looked at the cut-over markers. Membership is stable: `owner` is the placement that every
node computes.
-/

namespace Shale.ParentAnchored

open Function (update)

open SingleNode (Request CallPhase copyTarget)

/-- One split: the placement and the counts it moves between. -/
structure Cluster where
  hash : Bytes → ShardHash
  nodes : List Nat
  owner : GenUnit → Nat
  gen : Nat
  count : UnitCount
  next : UnitCount
  twice : next.n = 2 * count.n

namespace Cluster

variable (c : Cluster)

def parentOf (key : Bytes) : GenUnit := { gen := c.gen, id := unitForHash (c.hash key) c.count }

def childOf (key : Bytes) : GenUnit :=
  { gen := c.gen + 1, id := unitForHash (c.hash key) c.next }

def placementGenUnit (gs : GenState) (key : Bytes) : GenUnit :=
  if gs.nextCount.isSome then { gen := gs.gen, id := unitForHash (c.hash key) gs.count }
  else gs.resolveGenUnit (c.hash key)

def ownsKey (gs : GenState) (n : Nat) (key : Bytes) : Bool :=
  c.owner (c.placementGenUnit gs key) == n

def desiredGenUnits (gs : GenState) (n : Nat) : List GenUnit :=
  let units : List GenUnit := (List.range gs.count.n).map fun u => { gen := gs.gen, id := u }
  let owned := units.filter fun gu => c.owner gu == n
  match gs.nextCount with
  | none => owned
  | some next =>
    if next.n > gs.count.n then
      owned.flatMap fun gu =>
        match childUnits gu.id gs.count with
        | .error _ => [gu]
        | .ok (low, high) =>
          [gu, { gen := gs.gen + 1, id := low }, { gen := gs.gen + 1, id := high }]
    else owned

end Cluster

/-- A call of the local write path, on the node that took it. -/
structure Call where
  node : Nat
  request : Request
  phase : CallPhase
deriving DecidableEq

/-- Where a node's driver stands. `unit` is the old unit being bisected, `todo` the owned
units after it; `rest` are the entries still to copy and `keys` the keys still to clear. -/
inductive DriverPhase where
  | idle
  | driving (todo : List Nat)
  | checked (unit : Nat) (todo : List Nat)
  | openedLow (unit : Nat) (todo : List Nat)
  | opened (unit : Nat) (todo : List Nat)
  | copying (unit : Nat) (rest : List (Bytes × Bytes)) (todo : List Nat)
  | paused (unit : Nat) (todo : List Nat)
  | clearingLow (unit : Nat) (keys : List Bytes) (todo : List Nat)
  | clearingHigh (unit : Nat) (keys : List Bytes) (todo : List Nat)
  | recopying (unit : Nat) (rest : List (Bytes × Bytes)) (todo : List Nat)
  | published (unit : Nat) (todo : List Nat)
  | marking
  | retiring (todo : List Nat)

def DriverPhase.writeLock : DriverPhase → Option Nat
  | paused unit _ | clearingLow unit _ _ | clearingHigh unit _ _ | recopying unit _ _
  | published unit _ => some unit
  | idle | driving _ | checked _ _ | openedLow _ _ | opened _ _ | copying _ _ _ | marking
  | retiring _ => none

/-- The process of a node: `booting` has read the init marker, which may have moved on
by the time the process serves. -/
inductive Process where
  | down
  | booting (advanced : Bool)
  | serving
deriving DecidableEq

/-- The cluster. `marker` are the units with a durable cut-over marker, and `advanced`
tells whether the init marker names the next generation. `log` keeps the writes applied to
each key, newest first, by the index of their call; `before` is the state of each key when
the split began. -/
structure State where
  process : Nat → Process
  view : Nat → GenState
  db : GenUnit → Store Bytes
  mounts : Nat → AList (fun _ : GenUnit => Nat)
  handles : Nat
  calls : List Call
  driver : Nat → DriverPhase
  marker : List Nat
  advanced : Bool
  log : Bytes → List (Nat × Option Bytes)
  before : Bytes → Option Bytes

namespace State

variable (s : State)

def hasReader (n pause : Nat) : Bool :=
  s.calls.any fun call => call.node == n && call.phase.readLock == some pause

def ownedParentSlots (n gen : Nat) : List Nat :=
  ((s.mounts n).keys.filter fun gu => gu.gen == gen).map GenUnit.id

def setPhase (i : Nat) (call : Call) (phase : CallPhase) : State :=
  { s with calls := s.calls.set i { call with phase } }

def setDriver (n : Nat) (phase : DriverPhase) : State :=
  { s with driver := update s.driver n phase }

def setView (n : Nat) (gs : GenState) : State :=
  { s with view := update s.view n gs }

def setDb (gu : GenUnit) (store : Store Bytes) : State :=
  { s with db := update s.db gu store }

def unmount (n : Nat) (gu : GenUnit) : State :=
  { s with mounts := update s.mounts n ((s.mounts n).erase gu) }

def evictIfSame (n : Nat) (gu : GenUnit) (handle : Nat) : State :=
  if (s.mounts n).lookup gu = some handle then s.unmount n gu else s

def mountFresh (n : Nat) (gu : GenUnit) : State :=
  { s with
    mounts := update s.mounts n ((s.mounts n).insert gu s.handles)
    handles := s.handles + 1 }

def mountChild (n : Nat) (gu : GenUnit) : State :=
  if ((s.mounts n).lookup gu).isSome then s else s.mountFresh n gu

def applyWrite (i : Nat) (gu : GenUnit) (request : Request) : State :=
  { s.setDb gu ((s.db gu).write request.key request.effect) with
    log := update s.log request.key ((i, request.effect) :: s.log request.key) }

end State

variable (c : Cluster)

/-- The answer of a backend or of the conditional store. An error may come after the
operation has taken effect. -/
inductive Outcome where
  | ok
  | failed (tookEffect : Bool)
deriving DecidableEq

def Outcome.applied : Outcome → Bool
  | ok => true
  | failed tookEffect => tookEffect

def callStep (i : Nat) (outcome : Outcome) (s : State) : Option State :=
  match s.calls[i]? with
  | none => none
  | some call =>
    let n := call.node
    let key := call.request.key
    match call.phase with
    | .begun => some (s.setPhase i call (.counted (unitForHash (c.hash key) (s.view n).count)))
    | .counted pause =>
      if (s.driver n).writeLock = some pause then none
      else some (s.setPhase i call (.locked pause))
    | .locked pause =>
      some (s.setPhase i call (.resolved pause ((s.view n).resolveGenUnit (c.hash key))))
    | .resolved pause unit =>
      match (s.mounts n).lookup unit with
      | some handle => some (s.setPhase i call (.bound pause unit handle))
      | none => some (s.setPhase i call (.missed pause unit))
    | .missed pause unit =>
      -- `lowestForUnit`: the only position of a unit is the one just missed
      match (s.mounts n).lookup unit with
      | some handle => some (s.setPhase i call (.bound pause unit handle))
      | none => some (s.setPhase i call (.finishing pause false))
    | .bound pause unit handle =>
      match outcome with
      | .ok => some ((s.applyWrite i unit call.request).setPhase i call
          (.finishing pause true))
      | .failed true => some ((s.applyWrite i unit call.request).setPhase i call
          (.failed pause unit handle))
      | .failed false => some (s.setPhase i call (.failed pause unit handle))
    | .failed pause unit handle =>
      some ((s.evictIfSame n unit handle).setPhase i call (.finishing pause false))
    | .finishing _ acked => some (s.setPhase i call (.returned acked))
    | .returned _ => none

def Cluster.oldUnit (k : Nat) : GenUnit := { gen := c.gen, id := k }

def Cluster.lowUnit (k : Nat) : GenUnit := { gen := c.gen + 1, id := k }

def Cluster.highUnit (k : Nat) : GenUnit := { gen := c.gen + 1, id := k + c.count.n }

def copyEntry (k : Nat) (entry : Bytes × Bytes) (s : State) : State :=
  let child : GenUnit :=
    { gen := c.gen + 1, id := copyTarget c.hash c.count c.next k entry.1 }
  s.setDb child ((s.db child).put entry.1 entry.2)

def deleteKey (gu : GenUnit) (key : Bytes) (s : State) : State :=
  s.setDb gu ((s.db gu).delete key)

def keysOf (s : State) (gu : GenUnit) : List Bytes := (s.db gu).scan.map Prod.fst

/-- One request that the bisect of a unit makes: on success the bisect goes on with
`next`, on an error the unit is left for the next tick. -/
def attemptStep (n : Nat) (outcome : Outcome) (effect : State → State) (next : DriverPhase)
    (todo : List Nat) (s : State) : State :=
  let done := if outcome.applied then effect s else s
  done.setDriver n (if outcome = .ok then next else .driving todo)

def driveStep (n pick : Nat) (outcome : Outcome) (s : State) : Option State :=
  match s.driver n with
  | .idle => none
  | .driving [] => some (s.setDriver n .idle)
  | .driving (first :: rest) =>
    let todo := first :: rest
    if pick ∈ todo then
      -- a marker that is present, or cannot be read, leaves the unit alone
      if (s.view n).hasCutOver pick = true ∨ outcome ≠ .ok ∨ pick ∈ s.marker then
        some (s.setDriver n (.driving (todo.erase pick)))
      else some (s.setDriver n (.checked pick (todo.erase pick)))
    else none
  | .checked k todo =>
    match childUnits k c.count with
    | .error _ => some (s.setDriver n (.driving todo))
    | .ok _ =>
      if outcome = .ok then
        some ((s.mountChild n (c.lowUnit k)).setDriver n (.openedLow k todo))
      else some (s.setDriver n (.driving todo))
  | .openedLow k todo =>
    if outcome = .ok then
      some ((s.mountChild n (c.highUnit k)).setDriver n (.opened k todo))
    else some (s.setDriver n (.driving todo))
  | .opened k todo =>
    if ((s.mounts n).lookup (c.oldUnit k)).isSome ∧ outcome = .ok then
      some (s.setDriver n (.copying k (s.db (c.oldUnit k)).scan todo))
    else some (s.setDriver n (.driving todo))
  | .copying k (entry :: rest) todo =>
    some (attemptStep n outcome (copyEntry c k entry) (.copying k rest todo) todo s)
  | .copying k [] todo =>
    if s.hasReader n k then none else some (s.setDriver n (.paused k todo))
  | .paused k todo =>
    if outcome = .ok then
      some (s.setDriver n (.clearingLow k (keysOf s (c.lowUnit k)) todo))
    else some (s.setDriver n (.driving todo))
  | .clearingLow k (key :: keys) todo =>
    some (attemptStep n outcome (deleteKey (c.lowUnit k) key) (.clearingLow k keys todo)
      todo s)
  | .clearingLow k [] todo =>
    if outcome = .ok then
      some (s.setDriver n (.clearingHigh k (keysOf s (c.highUnit k)) todo))
    else some (s.setDriver n (.driving todo))
  | .clearingHigh k (key :: keys) todo =>
    some (attemptStep n outcome (deleteKey (c.highUnit k) key) (.clearingHigh k keys todo)
      todo s)
  | .clearingHigh k [] todo =>
    if outcome = .ok then
      some (s.setDriver n (.recopying k (s.db (c.oldUnit k)).scan todo))
    else some (s.setDriver n (.driving todo))
  | .recopying k (entry :: rest) todo =>
    some (attemptStep n outcome (copyEntry c k entry) (.recopying k rest todo) todo s)
  | .recopying k [] todo =>
    -- `publishCutoverMarker`: no flip unless the store has confirmed the marker
    some (attemptStep n outcome (fun s => { s with marker := k :: s.marker })
      (.published k todo) todo s)
  | .published k todo =>
    some ((s.setView n ((s.view n).cutOverUnit k)).setDriver n (.driving todo))
  | .marking =>
    -- `advanceClusterInitMarker`; an error defers the finalize
    let written := { s with advanced := s.advanced || outcome.applied }
    if outcome = .ok then
      some (written.setDriver n (.retiring (s.ownedParentSlots n c.gen)))
    else some (written.setDriver n .idle)
  | .retiring [] => some ((s.setView n ((s.view n).advance c.next)).setDriver n .idle)
  | .retiring (first :: rest) =>
    let todo := first :: rest
    if pick ∈ todo ∧ s.hasReader n pick = false then
      some ((s.unmount n (c.oldUnit pick)).setDriver n (.retiring (todo.erase pick)))
    else none

inductive Action where
  /-- Node `n` takes a client write, its own or a forwarded one. -/
  | call (n : Nat) (request : Request)
  | stepCall (i : Nat) (outcome : Outcome)
  | enter (n : Nat)
  /-- Node `n` observes the durable cut-over marker of a unit. -/
  | observe (n k : Nat)
  | beginDrive (n : Nat)
  | beginFinalize (n : Nat)
  | drive (n pick : Nat) (outcome : Outcome)
  | acquire (n : Nat) (gu : GenUnit)
  | release (n : Nat) (gu : GenUnit)
  | crash (n : Nat)
  /-- A starting process reads the init marker, or reads it again. -/
  | boot (n : Nat)
  | serve (n : Nat)
deriving DecidableEq

def State.isIdle (s : State) (n : Nat) : Bool :=
  s.process n == .serving &&
    match s.driver n with
    | .idle => true
    | _ => false

def crashNode (n : Nat) (s : State) : State :=
  { s with
    process := update s.process n .down
    mounts := update s.mounts n ∅
    calls := s.calls.map fun call =>
      match call.phase with
      | .returned _ => call
      | _ => if call.node = n then { call with phase := .returned false } else call
    driver := update s.driver n .idle }

def Cluster.adopted (advanced : Bool) : GenState :=
  if advanced then .steady (c.gen + 1) c.next else .steady c.gen c.count

def openNode (n : Nat) (advanced : Bool) (s : State) : State :=
  let view := c.adopted advanced
  let mounted := (c.desiredGenUnits view n).foldl (fun state gu => state.mountFresh n gu) s
  { mounted.setView n view with process := update s.process n .serving }

def step (action : Action) (s : State) : Option State :=
  match action with
  | .call n request =>
    if s.process n = .serving ∧ c.ownsKey (s.view n) n request.key ∧
        request.effect ≠ some [] then
      some { s with calls := s.calls ++ [{ node := n, request, phase := .begun }] }
    else none
  | .stepCall i outcome => callStep c i outcome s
  | .enter n =>
    if s.isIdle n ∧ s.view n = GenState.steady c.gen c.count then
      some (s.setView n ((s.view n).enter c.next))
    else none
  | .observe n k =>
    if s.isIdle n ∧ (s.view n).nextCount.isSome ∧ (s.view n).count.contains k ∧
        k ∈ s.marker then
      some (s.setView n ((s.view n).cutOverUnit k))
    else none
  | .beginDrive n =>
    if s.isIdle n ∧ (s.view n).nextCount.isSome then
      some (s.setDriver n (.driving (s.ownedParentSlots n c.gen)))
    else none
  | .beginFinalize n =>
    if s.isIdle n ∧ (s.view n).allCutOver then some (s.setDriver n .marking) else none
  | .drive n pick outcome => driveStep c n pick outcome s
  | .acquire n gu =>
    if s.isIdle n ∧ gu ∈ c.desiredGenUnits (s.view n) n ∧ (s.mounts n).lookup gu = none then
      some (s.mountFresh n gu)
    else none
  | .release n gu =>
    if s.isIdle n ∧ gu ∉ c.desiredGenUnits (s.view n) n then some (s.unmount n gu) else none
  | .crash n => some (crashNode n s)
  | .boot n =>
    if s.process n = .serving then none
    else some { s with process := update s.process n (.booting s.advanced) }
  | .serve n =>
    match s.process n with
    | .booting advanced => some (openNode c n advanced s)
    | _ => none

def machine : Machine State Action := ⟨step c⟩

def State.isAcked (s : State) (i : Nat) : Bool :=
  (s.calls[i]?.map Call.phase) == some (.returned true)

def lastAcked (s : State) (key : Bytes) : Option Bytes :=
  match (s.log key).find? fun write => s.isAcked write.1 with
  | some write => write.2
  | none => s.before key

/-- The writes applied to a key after the last acked one: still in flight, or cut off
from their answer by an error or a crash. -/
def unacked (s : State) (key : Bytes) : List (Nat × Option Bytes) :=
  (s.log key).takeWhile fun write => !s.isAcked write.1

/-- The cluster when the arbiter agrees on the split: every node serves the old generation
and mounts its units, and nothing is in flight. The children may hold anything. -/
structure Initial (s : State) : Prop where
  serving : ∀ n, s.process n = .serving
  steady : ∀ n, s.view n = GenState.steady c.gen c.count
  idle : ∀ n, s.driver n = .idle
  noCalls : s.calls = []
  noMarkers : s.marker = [] ∧ s.advanced = false
  mounted : ∀ n, ∀ gu ∈ s.mounts n, gu ∈ c.desiredGenUnits (s.view n) n
  noLog : ∀ key, s.log key = []
  before : ∀ key, s.before key = (s.db (c.parentOf key)).get key

def Finalized (s : State) : Prop :=
  ∀ n ∈ c.nodes, s.process n = .serving ∧ (s.view n).gen = c.gen + 1

instance (s : State) : Decidable (Finalized c s) :=
  inferInstanceAs (Decidable (∀ n ∈ c.nodes, s.process n = .serving ∧ (s.view n).gen = c.gen + 1))

end Shale.ParentAnchored
