import Shale.Replication.ApplyBatch
import Shale.Transaction.ReadBack

/-!
# From the write buffer to the owner and the replicas

A transaction against several replicas, from its buffer to the bytes that are stored. The owner
encodes each operation of the shipped write-set under one stamp, commits them together and ships
the same bytes to the other replicas, which apply them if newer.

A replica does not apply two entries of one stamp for a key, while the owner's transaction keeps
the last: that both end with the same bytes rests on the buffer naming each key once.
-/

namespace Shale

open Session

open ApplyBatch (applyEnvelopesTx wire valuesFor EnvelopeWrite Answers ApplyError)

namespace ClusterTx

variable {sharding : Sharding} {gs : GenState} {tx after : ClusterTx} {key : Bytes}

theorem answer_of_get {routed answer : Option Bytes}
    (answered : tx.get sharding gs key routed = .ok (after, answer)) :
    answer = (tx.buffered key).getD routed := by
  unfold get at answered
  split at answered
  · cases answered
  case h_2 pinned admitted =>
    obtain ⟨pin, rfl, -⟩ := of_guardShard admitted
    split at answered
    case h_1 op found =>
      cases Except.ok.inj answered
      simp [buffered, found]
    case h_2 missing =>
      cases Except.ok.inj answered
      simp [buffered, missing]

end ClusterTx

/-- The node ids of a cluster and their numbers. `Open` refuses an id longer than
`MaxNodeIDLen`. -/
structure NodeIds where
  id : Nat → Bytes
  number : Bytes → Nat
  short : ∀ node, (id node).length ≤ 256

def NodeIds.stamp (ids : NodeIds) (stamp : Stamp) : Wire.Stamp :=
  ⟨stamp.timestamp, ids.id stamp.node⟩

/-- The envelope that `CommitCASApply` stores for an operation; a delete has no payload. -/
def NodeIds.encode (ids : NodeIds) (stamp : Stamp) (value : Option Bytes) : Bytes :=
  Wire.encode ⟨ids.stamp stamp, value.getD []⟩

def wireLayout (ids : NodeIds) : Position.Layout Bytes where
  replicated := true
  payload := fun bytes =>
    match Wire.decode bytes with
    | .ok env => some (if env.payload = [] then none else some env.payload)
    | .error _ => none
  stamp := fun bytes =>
    match Wire.decodeStamp bytes with
    | .ok (stamp, _) => some ⟨stamp.timestampNanos, ids.number stamp.nodeID⟩
    | .error _ => none
  entry := fun stamp op => some (ids.encode stamp op.value)

def encodedWrites (ids : NodeIds) (stamp : Stamp) (writes : List WriteOp) :
    List (EnvelopeWrite Bytes) :=
  writes.map fun op => ⟨op.key, ids.encode stamp op.value⟩

section Encoded

variable {ids : NodeIds} {stamp : Stamp} {writes : List WriteOp}

theorem decodeStamp_encode (ids : NodeIds) (fits : stamp.timestamp < 2 ^ 64)
    (value : Option Bytes) : wire.decodeStamp (ids.encode stamp value) = .ok (ids.stamp stamp) := by
  have short : (ids.id stamp.node).length < 2 ^ 16 :=
    (ids.short stamp.node).trans_lt (by decide)
  have decoded : Wire.decodeStamp (ids.encode stamp value) =
      .ok (ids.stamp stamp, 11 + (ids.id stamp.node).length) := Wire.decodeStamp_encode fits short
  simp only [wire, decoded]
  rfl

theorem valuesFor_encodedWrites (once : (writes.map WriteOp.key).Nodup) (key : Bytes) :
    valuesFor key (encodedWrites ids stamp writes) =
      ((writes.find? fun op => op.key == key).map fun op => ids.encode stamp op.value).toList := by
  induction writes with
  | nil => rfl
  | cons op rest ih =>
    rw [List.map_cons, List.nodup_cons] at once
    have later := ih once.2
    rw [encodedWrites, List.map_cons, ← encodedWrites, ApplyBatch.valuesFor_cons, later]
    split
    case isTrue same =>
      obtain rfl := same
      have missing : rest.find? (fun later => later.key == op.key) = none := by
        simpa using once.1
      simp [missing]
    case isFalse other => simp [other]

/-- The ways a replica refuses a batch: the node is closed, it does not hold the unit, or the
apply fails. -/
inductive BatchError where
  | closed
  | acquiring
  | apply (err : ApplyError)
deriving DecidableEq

def applyBatchLocal (closed mounted : Bool) (answers : Answers) (db : Store Bytes) (clock : Nat)
    (writes : List (EnvelopeWrite Bytes)) : Store Bytes × Nat × Except BatchError Unit :=
  if closed then (db, clock, .error .closed)
  else if writes = [] then (db, clock, .ok ())
  else if mounted then
    match applyEnvelopesTx wire answers db clock writes with
    | (db, clock, .ok _) => (db, clock, .ok ())
    | (db, clock, .error err) => (db, clock, .error (.apply err))
  else (db, clock, .error .acquiring)

section Replica

variable {closed mounted : Bool} {answers : Answers} {db : Store Bytes} {clock : Nat}
  {batch : List (EnvelopeWrite Bytes)}

theorem get_of_applyBatchLocal
    (done : (applyBatchLocal closed mounted answers db clock batch).2.2 = .ok ()) (key : Bytes) :
    (applyBatchLocal closed mounted answers db clock batch).1.get key =
      LastWriter.merged wire.storedStamp (db.get key) (valuesFor key batch) := by
  unfold applyBatchLocal at done ⊢
  split at done
  · cases done
  case isFalse opened =>
    rw [if_neg opened]
    split
    case isTrue empty =>
      rw [empty]
      rfl
    case isFalse some_writes =>
      rw [if_neg some_writes] at done
      split at done
      case isFalse => cases done
      case isTrue held =>
        rw [if_pos held]
        split at done
        case h_1 applied ended =>
          have succeeded : (applyEnvelopesTx wire answers db clock batch).2.2 = .ok applied := by
            rw [ended]
          simpa [ended] using ApplyBatch.get_of_applyEnvelopesTx succeeded key
        case h_2 => cases done

theorem db_of_applyBatchLocal_error {err : BatchError}
    (failed : (applyBatchLocal closed mounted answers db clock batch).2.2 = .error err) :
    (applyBatchLocal closed mounted answers db clock batch).1 = db := by
  unfold applyBatchLocal at failed ⊢
  split
  · rfl
  · split
    · rfl
    · split
      case isTrue =>
        split
        case h_1 ended => simp_all
        case h_2 reason ended =>
          have refused : (applyEnvelopesTx wire answers db clock batch).2.2 = .error reason := by
            rw [ended]
          simpa [ended] using ApplyBatch.db_of_error refused
      · rfl

theorem applyBatchLocal_ok (ids : NodeIds) (fits : stamp.timestamp < 2 ^ 64)
    (writes : List WriteOp) (db : Store Bytes) (clock : Nat) :
    (applyBatchLocal false true .ok db clock (encodedWrites ids stamp writes)).2.2 = .ok () := by
  have decodes : ∀ w ∈ encodedWrites ids stamp writes, ∃ stamp,
      wire.decodeStamp w.envelope = .ok stamp := by
    intro w mem
    obtain ⟨op, -, rfl⟩ := List.mem_map.mp mem
    exact ⟨_, decodeStamp_encode ids fits op.value⟩
  obtain ⟨applied, done⟩ := ApplyBatch.applyEnvelopesTx_ok decodes db clock
  unfold applyBatchLocal
  simp only [Bool.false_eq_true, ↓reduceIte]
  split
  · rfl
  · split
    case h_1 => rfl
    case h_2 ended =>
      rw [ended] at done
      cases done

theorem get_of_applied_writes (once : (writes.map WriteOp.key).Nodup)
    (fits : stamp.timestamp < 2 ^ 64) {key : Bytes}
    (lower : ∀ old, (writes.find? fun op => op.key == key).isSome → db.get key = some old →
      wire.storedStamp old < ids.stamp stamp)
    (done : (applyBatchLocal closed mounted answers db clock
      (encodedWrites ids stamp writes)).2.2 = .ok ()) :
    (applyBatchLocal closed mounted answers db clock (encodedWrites ids stamp writes)).1.get key =
      match writes.find? fun op => op.key == key with
      | some op => some (ids.encode stamp op.value)
      | none => db.get key := by
  rw [get_of_applyBatchLocal done, valuesFor_encodedWrites once]
  cases found : writes.find? fun op => op.key == key with
  | none => rfl
  | some op =>
    have own := wire.storedStamp_eq (decodeStamp_encode ids fits op.value)
    cases held : db.get key with
    | none => rfl
    | some old =>
      have beaten := lower old (by rw [found]; rfl) held
      simp [LastWriter.merged, LastWriter.newer, own, beaten]

end Replica

end Encoded

namespace Session

variable {sharding : Sharding}

theorem writeBuf_call_of_unpinned {s : Session} {gs : GenState} {call : TxCall}
    (unpinned : (s.call sharding gs call).tx.pin = none) :
    s.tx.pin = none ∧ (s.call sharding gs call).tx.writeBuf = s.tx.writeBuf := by
  constructor
  · rcases call_cases sharding s gs call with ⟨-, before, -⟩ | ⟨key, routed, pinned, -⟩
    · exact before unpinned
    · exact absurd unpinned pinned
  · rcases writeBuf_call sharding s gs call with
      ⟨same, -⟩ | ⟨written, value, pinned, rfl, accepted, -, -⟩
    · exact same
    · cases done : s.tx.write sharding gs written value with
      | error refusal => simp [done, Except.toOption] at accepted
      | ok tx =>
        simp only [call, done] at unpinned
        exact absurd unpinned (ClusterTx.of_write done).1

theorem writeBuf_of_unpinned {s : Session} (calls : List (GenState × TxCall))
    (empty : s.tx.pin = none → s.tx.writeBuf = [])
    (unpinned : (s.calls sharding calls).tx.pin = none) :
    (s.calls sharding calls).tx.writeBuf = [] := by
  induction calls generalizing s with
  | nil => exact empty unpinned
  | cons head rest ih =>
    refine ih (fun now => ?_) unpinned
    obtain ⟨before, same⟩ := writeBuf_call_of_unpinned now
    rw [same, empty before]

theorem writeBuf_of_not_ships {calls : List (GenState × TxCall)}
    (nothing : (new.calls sharding calls).tx.ships = none) :
    (new.calls sharding calls).tx.writeBuf = [] := by
  unfold ClusterTx.ships at nothing
  split at nothing
  case h_1 unpinned => exact writeBuf_of_unpinned calls (fun _ => rfl) unpinned
  case h_2 =>
    split at nothing
    case isTrue empty => exact empty.1
    case isFalse => cases nothing

end Session

/-- `Commit` returns nil and takes the owner's database from one state to another under a stamp:
nothing was shipped, or the owner's position has reported the shipped call as committed. -/
inductive Commits (ids : NodeIds) (node : Nat) (tx : ClusterTx) :
    Store Bytes → Store Bytes → Stamp → Prop where
  | empty {db : Store Bytes} {stamp : Stamp} (nothing : tx.ships = none) :
      Commits ids node tx db db stamp
  | reported {pinKey : Bytes} {call : Position.CasCall} {db : Store Bytes} {clock : Nat}
      {s s' : Position.State Bytes} {action : Position.Action Bytes} {stamp : Stamp}
      (shipped : tx.ships = some (pinKey, call.reads, call.writes))
      (reached : (Position.machine (wireLayout ids) node).Reaches Machine.anyAction
        (Position.initial db clock) s)
      (stepped : Position.step (wireLayout ids) node action s = some s')
      (finished : s'.finished = s.finished ++ [(call, .committed stamp)]) :
      Commits ids node tx s.db s'.db stamp

section Whole

variable {ids : NodeIds} {node : Nat} {sharding : Sharding} {calls : List (GenState × TxCall)}
  {before after : Store Bytes} {stamp : Stamp}

theorem Commits.get
    (committed : Commits ids node (new.calls sharding calls).tx before after stamp)
    (key : Bytes) :
    after.get key =
      match new.lastWrite sharding key calls with
      | some value => some (ids.encode stamp value)
      | none => before.get key := by
  have held := buffered_new_calls sharding calls key
  cases committed with
  | empty nothing =>
    rw [ClusterTx.buffered, writeBuf_of_not_ships nothing] at held
    rw [← held]
    rfl
  | @reported _ call _ _ s _ _ _ shipped reached stepped finished =>
    cases last : new.lastWrite sharding key calls with
    | some value => exact entry_of_reported last shipped reached stepped finished
    | none =>
      obtain ⟨tx, holder, rfl, phase, stored⟩ := Position.commit_of_reported stepped finished
      have sound := (Position.Inv.of_reaches reached).commit holder
      have absent : key ∉ tx.call.writes.map WriteOp.key := by
        rw [ClusterTx.writeBuf_of_ships shipped]
        simpa [last, ClusterTx.buffered] using held
      rw [stored, (sound.at_commit phase).2]
      exact Position.Layout.execute_of_notMem _ stamp _ absent s.db.get

/-- What an apply has made of a replica: with success it has the owner's entries of the written
keys and else what it had, and with an error nothing has changed. -/
structure TakesOver (written : Bytes → Bool) (owner before : Store Bytes)
    (result : Store Bytes × Nat × Except BatchError Unit) : Prop where
  applied : result.2.2 = .ok () → ∀ key,
    result.1.get key = if written key then owner.get key else before.get key
  refused : ∀ err, result.2.2 = .error err → result.1 = before

theorem Commits.takesOver
    (committed : Commits ids node (new.calls sharding calls).tx before after stamp)
    (fits : stamp.timestamp < 2 ^ 64) {db : Store Bytes}
    (lower : ∀ key old, (new.lastWrite sharding key calls).isSome →
      db.get key = some old → wire.storedStamp old < ids.stamp stamp)
    (closed mounted : Bool) (answers : Answers) (clock : Nat) :
    TakesOver (fun key => (new.lastWrite sharding key calls).isSome) after db
      (applyBatchLocal closed mounted answers db clock
        (encodedWrites ids stamp (new.calls sharding calls).tx.writeBuf)) where
  applied := by
    intro done key
    have once : (new.calls sharding calls).tx.WritesOnce :=
      writesOnce_calls new_writesOnce calls
    have held := buffered_new_calls sharding calls key
    have below : ∀ old, ((new.calls sharding calls).tx.writeBuf.find?
        fun op => op.key == key).isSome → db.get key = some old →
          wire.storedStamp old < ids.stamp stamp := by
      intro old named
      refine lower key old ?_
      rw [← held, ClusterTx.buffered, Option.isSome_map]
      exact named
    rw [get_of_applied_writes once fits below done, committed.get key, ← held, ClusterTx.buffered]
    cases (new.calls sharding calls).tx.writeBuf.find? fun op => op.key == key with
    | none => rfl
    | some op => rfl
  refused := fun err => db_of_applyBatchLocal_error

/-- **A transaction's buffer refines to its owner and replicas.** Where `Commit` returns nil, every
`Get` inside has seen the buffer, the owner stores the last operation on each written key under one
stamp, and a replica with lower stamps takes over the same bytes. -/
theorem buffer_reaches_replicas
    (committed : Commits ids node (new.calls sharding calls).tx before after stamp)
    (fits : stamp.timestamp < 2 ^ 64) :
    (∀ earlier gs key routed rest tx answer, calls = earlier ++ (gs, .get key routed) :: rest →
      (new.calls sharding earlier).tx.get sharding gs key routed = .ok (tx, answer) →
      answer = (new.lastWrite sharding key earlier).getD routed) ∧
    (new.calls sharding calls).tx.WritesOnce ∧
    (∀ key, after.get key =
      match new.lastWrite sharding key calls with
      | some value => some (ids.encode stamp value)
      | none => before.get key) ∧
    ∀ (db : Store Bytes) (clock : Nat),
      (∀ key old, (new.lastWrite sharding key calls).isSome → db.get key = some old →
        wire.storedStamp old < ids.stamp stamp) →
      (∀ closed mounted answers,
        TakesOver (fun key => (new.lastWrite sharding key calls).isSome) after db
          (applyBatchLocal closed mounted answers db clock
            (encodedWrites ids stamp (new.calls sharding calls).tx.writeBuf))) ∧
      (applyBatchLocal false true .ok db clock
        (encodedWrites ids stamp (new.calls sharding calls).tx.writeBuf)).2.2 = .ok () := by
  refine ⟨?_, writesOnce_calls new_writesOnce calls, committed.get, ?_⟩
  · intro earlier gs key routed rest tx answer _ answered
    rw [ClusterTx.answer_of_get answered, buffered_new_calls]
  · intro db clock lower
    refine ⟨fun closed mounted answers => ?_, applyBatchLocal_ok ids fits _ db clock⟩
    exact committed.takesOver fits lower closed mounted answers clock

end Whole

def byteIds : NodeIds := ⟨fun node => [UInt8.ofNat node], fun id => id.length, by simp⟩

/-- A closure that puts a key, reads it, deletes another and puts the first again. -/
def rewrites : List (GenState × TxCall) :=
  [.write [1] (some [7]), .get [1] none, .write [2] none, .write [1] (some [8])].map fun call =>
    (.steady 0 .one, call)

def rewriteCall : Position.CasCall := ⟨[], [⟨[1], some [8]⟩, ⟨[2], none⟩]⟩

def commitRewrite : List (Position.Action Bytes) :=
  .call rewriteCall :: .lockCas 0 :: List.replicate 11 (.stepCas true 100)

theorem rewrite_reaches_replica :
    ∃ before after,
      Commits byteIds 5 (new.calls oneUnit rewrites).tx before after ⟨100, 5⟩ ∧
      ∀ key ∈ [[1], [2]], (applyBatchLocal false true .ok ∅ 0 (encodedWrites byteIds ⟨100, 5⟩
        (new.calls oneUnit rewrites).tx.writeBuf)).1.get key = after.get key := by
  obtain ⟨s, s', reached, stepped, finished⟩ :=
    (Position.machine (wireLayout byteIds) 5).exists_step_of_run Machine.anyAction commitRewrite
      (.stepCas true 100) (Position.initial ∅ 0)
      (fun s s' => s'.finished = s.finished ++ [(rewriteCall, .committed ⟨100, 5⟩)]) (by decide)
  rw [Position.machine_step] at stepped
  have shipped : (new.calls oneUnit rewrites).tx.ships =
      some ([1], rewriteCall.reads, rewriteCall.writes) := by decide
  have committed : Commits byteIds 5 (new.calls oneUnit rewrites).tx s.db s'.db ⟨100, 5⟩ :=
    .reported shipped reached stepped finished
  refine ⟨s.db, s'.db, committed, fun key named => ?_⟩
  obtain ⟨-, -, -, replicas⟩ := buffer_reaches_replicas committed (by decide)
  obtain ⟨takes, done⟩ := replicas ∅ 0 (by simp)
  rw [(takes false true .ok).applied done key, if_pos]
  revert key
  decide

end Shale
