import Shale.Foundation.Machine
import Shale.Transaction.ClusterTx

/-!
# Where the keys of a transaction land

A commit ships the write-set of a transaction to the owner of its pin key. The owner
resolves one unit, from the pin key, under that unit's write pause (`localBeginForKey`) and
commits every write there. At several replicas the batch then goes to the other nodes,
which resolve one unit from its first key (`applyBatchToUnit`), and to another position of
the owner (`applyBatchToReplicaUnit`).

`machine` interleaves these applies with the operations of any number of transactions and
with the routing-state commits of every node: entering a reshard, cutting units over under
their write pause (`bisectUnit`) or without it (`observeCutoverMarkers`), and advancing the
generation. Mounts are left out; an apply that finds none, or whose validation or backend
fails, ends without storing anything.
-/

namespace Shale.Transact

/-- How keys are sharded, and which resharder runs: with an arbiter, every node drives its
own share; without one, a single node runs `Reshard` itself. -/
structure Config where
  sharding : Sharding
  replicated : Bool
  arbiter : Bool

def Config.hash (c : Config) (key : Bytes) : ShardHash := c.sharding.hash key

/-- How far the apply of a write-set has come on a node. `pause` is the unit whose write
pause it reads or is about to read. -/
inductive ApplyPhase where
  | started
  | counted (pause : Nat)
  | locked (pause : Nat)
  | addressed (unit : GenUnit)
  | waiting (unit : GenUnit) (pause : Nat)
  | bound (unit : GenUnit) (pause : Option Nat)
  | finished (ok : Bool)
deriving DecidableEq

namespace ApplyPhase

def unit : ApplyPhase → Option GenUnit
  | addressed unit | waiting unit _ | bound unit _ => some unit
  | started | counted _ | locked _ | finished _ => none

def readLock : ApplyPhase → Option Nat
  | locked pause => some pause
  | bound _ pause => pause
  | started | counted _ | addressed _ | waiting _ _ | finished _ => none

end ApplyPhase

/-- The apply of a write-set on a node: the owner's commit, anchored in the pin key, or the
batch on a replica. `pinned` is the unit that the guard has compared the keys with; it is not
shipped. -/
structure Apply where
  node : Nat
  anchor : Bytes
  pinned : Option GenUnit
  writes : List WriteOp
  commits : Bool
  phase : ApplyPhase
deriving DecidableEq

structure Stored where
  node : Nat
  unit : GenUnit
  routing : GenState
  writes : List WriteOp
deriving DecidableEq

/-- All nodes. `paused` tells whose write side of a unit's pause is held on a node, and
`stored` records what has been stored where. -/
structure State where
  routing : Nat → GenState
  paused : Nat → Nat → Bool
  txs : List (Nat × ClusterTx)
  applies : List Apply
  stored : List Stored

namespace State

variable (s : State)

def hasReader (n pause : Nat) : Bool :=
  s.applies.any fun apply => apply.node == n && apply.phase.readLock == some pause

def setPhase (i : Nat) (apply : Apply) (phase : ApplyPhase) : State :=
  { s with applies := s.applies.set i { apply with phase } }

def addApply (apply : Apply) : State := { s with applies := s.applies ++ [apply] }

def setTx (i node : Nat) (tx : ClusterTx) : State := { s with txs := s.txs.set i (node, tx) }

def setRouting (n : Nat) (gs : GenState) : State :=
  { s with routing := Function.update s.routing n gs }

def setPaused (n pause : Nat) (held : Bool) : State :=
  { s with paused := Function.update s.paused n (Function.update (s.paused n) pause held) }

end State

variable (c : Config)

def applyStep (i : Nat) (succeeds : Bool) (s : State) : Option State :=
  match s.applies[i]? with
  | none => none
  | some apply =>
    let gs := s.routing apply.node
    match apply.phase with
    | .started =>
      some (s.setPhase i apply (.counted (unitForHash (c.hash apply.anchor) gs.count)))
    | .counted pause =>
      if s.paused apply.node pause then none else some (s.setPhase i apply (.locked pause))
    | .locked pause =>
      if succeeds then
        some (s.setPhase i apply
          (.bound (gs.resolveGenUnit (c.hash apply.anchor)) (some pause)))
      else some (s.setPhase i apply (.finished false))
    | .addressed unit =>
      -- `parentSlotMidSplit`
      if gs.nextCount.isSome ∧ unit.gen = gs.gen then
        some (s.setPhase i apply (.waiting unit unit.id))
      else some (s.setPhase i apply (.bound unit none))
    | .waiting unit pause =>
      if s.paused apply.node pause then none
      else some (s.setPhase i apply (.bound unit (some pause)))
    | .bound unit _ =>
      if succeeds then
        some { s.setPhase i apply (.finished true) with
          stored := s.stored ++ [{ node := apply.node, unit, routing := gs,
                                   writes := apply.writes }] }
      else some (s.setPhase i apply (.finished false))
    | .finished _ => none

/-- The steps of the cluster: the operations of transactions, the applies of their
write-sets, and the routing-state commits of the nodes. -/
inductive Action where
  | begin (node : Nat)
  | pin (i : Nat) (key : Bytes)
  | get (i : Nat) (key : Bytes) (routed : Option Bytes)
  | write (i : Nat) (key : Bytes) (value : Option Bytes)
  | rollback (i : Nat)
  | commit (i owner : Nat)
  | ship (i node : Nat)
  | shipExtra (i : Nat)
  | stepApply (i : Nat) (succeeds : Bool)
  | enter (n : Nat) (next : UnitCount)
  | pause (n k : Nat)
  | resume (n k : Nat)
  | cutOver (n k : Nat)
  | observe (n k : Nat)
  | advance (n : Nat)
deriving DecidableEq

def txStep (s : State) (i : Nat) (op : GenState → ClusterTx → Except GuardError ClusterTx) :
    Option State :=
  match s.txs[i]? with
  | none => none
  | some (node, tx) =>
    match op (s.routing node) tx with
    | .error _ => none
    | .ok after => some (s.setTx i node after)

def step (action : Action) (s : State) : Option State :=
  match action with
  | .begin node => some { s with txs := s.txs ++ [(node, ClusterTx.new)] }
  | .pin i key => txStep s i fun gs tx => .ok (tx.pinLocked c.sharding gs key)
  | .get i key routed =>
    txStep s i fun gs tx => (tx.get c.sharding gs key routed).map Prod.fst
  | .write i key value => txStep s i fun gs tx => tx.write c.sharding gs key value
  | .rollback i => txStep s i fun _ tx => .ok { tx with done := true }
  | .commit i owner =>
    match s.txs[i]? with
    | none => none
    | some (node, tx) =>
      if tx.done then none
      else
        let closed := s.setTx i node { tx with done := true }
        match tx.ships with
        | none => some closed
        | some (anchor, _, writes) =>
          some (closed.addApply ⟨owner, anchor, tx.pin.map Pin.unit, writes, true, .started⟩)
  | .ship i node =>
    match s.applies[i]? with
    | some ⟨owner, _, pinned, first :: rest, true, .finished true⟩ =>
      if c.replicated ∧ node ≠ owner then
        some (s.addApply ⟨node, first.key, pinned, first :: rest, false, .started⟩)
      else none
    | _ => none
  | .shipExtra i =>
    match s.applies[i]? with
    | some ⟨owner, anchor, pinned, first :: rest, true, .finished true⟩ =>
      if c.replicated then
        some (s.addApply ⟨owner, anchor, pinned, first :: rest, false,
          .addressed ((s.routing owner).resolveGenUnit (c.hash anchor))⟩)
      else none
    | _ => none
  | .stepApply i succeeds => applyStep c i succeeds s
  | .enter n next =>
    let gs := s.routing n
    if gs.nextCount = none ∧ (next.n = 2 * gs.count.n ∨
        c.replicated ∧ c.arbiter ∧ gs.count.n = 2 * next.n) then
      some (s.setRouting n (gs.enter next))
    else none
  | .pause n k =>
    if s.paused n k ∨ s.hasReader n k then none else some (s.setPaused n k true)
  | .resume n k => if s.paused n k then some (s.setPaused n k false) else none
  | .cutOver n k =>
    let gs := s.routing n
    if ¬ c.replicated ∧ s.paused n k ∧ gs.nextCount.isSome ∧ k < gs.count.n ∧
        k ∉ gs.cutOver then
      some (s.setRouting n (gs.cutOverUnit k))
    else none
  | .observe n k =>
    let gs := s.routing n
    if c.arbiter ∧ gs.nextCount.isSome ∧ k < gs.count.n ∧ k ∉ gs.cutOver then
      some (s.setRouting n (gs.cutOverUnit k))
    else none
  | .advance n =>
    let gs := s.routing n
    match gs.nextCount with
    | none => none
    | some next =>
      if c.arbiter → gs.allCutOver then some (s.setRouting n (gs.advance next)) else none

def machine : Machine State Action := ⟨step c⟩

/-- A cluster without a transaction or a reshard. -/
def initial (gen : Nat) (count : UnitCount) : State where
  routing := fun _ => .steady gen count
  paused := fun _ _ => false
  txs := []
  applies := []
  stored := []

end Shale.Transact
