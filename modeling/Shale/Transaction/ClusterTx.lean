import Shale.Storage.Generation
import Shale.Storage.Store

/-!
# The buffered transaction

`clusterTx` of `castx.go` in multi-backend mode: a read-set and a write-set that are
buffered on the client's node and shipped in one commit. The first key touched pins the
transaction to the unit that the node's routing state gives it, and `guardShard` admits a
further key only if it resolves to that unit at the time it is touched.
-/

namespace Shale

structure ReadCheck where
  key : Bytes
  expected : Option Bytes
deriving DecidableEq, Repr

structure WriteOp where
  key : Bytes
  value : Option Bytes
deriving DecidableEq, Repr

structure Sharding where
  shardKey : Bytes → Bytes
  hashShardKey : Bytes → ShardHash

def Sharding.hash (sharding : Sharding) (key : Bytes) : ShardHash :=
  sharding.hashShardKey (sharding.shardKey key)

def Sharding.genUnitForKey (sharding : Sharding) (gs : GenState) (key : Bytes) : GenUnit :=
  gs.resolveGenUnit (sharding.hash key)

structure Pin where
  key : Bytes
  unit : GenUnit
deriving DecidableEq

/-- `clusterTx`. The index maps of the source are searches in the two buffers here. -/
structure ClusterTx where
  pin : Option Pin
  done : Bool
  reads : List ReadCheck
  writeBuf : List WriteOp
deriving DecidableEq

/-- The ways an operation of a transaction is refused. -/
inductive GuardError where
  | finalized
  | layoutChanged
  | crossShard
deriving DecidableEq

namespace ClusterTx

def new : ClusterTx := { pin := none, done := false, reads := [], writeBuf := [] }

variable (sharding : Sharding) (gs : GenState) (tx : ClusterTx) (key : Bytes)

def pinLocked : ClusterTx :=
  match tx.pin with
  | some _ => tx
  | none => { tx with pin := some { key, unit := sharding.genUnitForKey gs key } }

/-- `guardShard` in the routing state of the client's node. A key of the pin's own shard key
that has moved is refused as a changed layout, any other key outside the unit as
cross-shard. -/
def guardShard : Except GuardError ClusterTx :=
  if tx.done then .error .finalized
  else
    match tx.pin with
    | none => .ok (tx.pinLocked sharding gs key)
    | some pin =>
      if sharding.genUnitForKey gs key ≠ pin.unit then
        if sharding.shardKey key = sharding.shardKey pin.key then .error .layoutChanged
        else .error .crossShard
      else .ok tx

def recordRead (value : Option Bytes) : ClusterTx :=
  if tx.reads.any fun check => check.key == key then tx
  else { tx with reads := tx.reads ++ [{ key, expected := value }] }

def bufferWrite (op : WriteOp) : ClusterTx :=
  if tx.writeBuf.any fun earlier => earlier.key == op.key then
    { tx with
      writeBuf := tx.writeBuf.map fun earlier => if earlier.key = op.key then op else earlier }
  else { tx with writeBuf := tx.writeBuf ++ [op] }

def get (routed : Option Bytes) : Except GuardError (ClusterTx × Option Bytes) :=
  match tx.guardShard sharding gs key with
  | .error err => .error err
  | .ok tx =>
    match tx.writeBuf.find? fun op => op.key == key with
    | some op => .ok (tx, op.value)
    | none => .ok (tx.recordRead key routed, routed)

def write (value : Option Bytes) : Except GuardError ClusterTx :=
  match tx.guardShard sharding gs key with
  | .error err => .error err
  | .ok tx => .ok (tx.bufferWrite { key, value })

def ships : Option (Bytes × List ReadCheck × List WriteOp) :=
  match tx.pin with
  | none => none
  | some pin =>
    if tx.writeBuf = [] ∧ tx.reads = [] then none else some (pin.key, tx.reads, tx.writeBuf)

variable {sharding gs tx key}

/-- A key that is admitted resolves to the unit of the pin, which it may be the first to set. -/
theorem of_guardShard {after : ClusterTx}
    (admitted : tx.guardShard sharding gs key = .ok after) :
    ∃ pin, after = { tx with pin := some pin } ∧ sharding.genUnitForKey gs key = pin.unit ∧
      (tx.pin = some pin ∨ tx.pin = none ∧ pin.key = key) := by
  unfold guardShard at admitted
  split at admitted
  · cases admitted
  · split at admitted
    case h_1 unpinned =>
      cases admitted
      exact ⟨_, by simp only [pinLocked, unpinned]; rfl, rfl, .inr ⟨unpinned, rfl⟩⟩
    case h_2 pin pinned =>
      split at admitted
      · split at admitted <;> cases admitted
      case isFalse same =>
        cases admitted
        exact ⟨pin, by rw [← pinned], not_not.mp same, .inl pinned⟩

end ClusterTx

end Shale
