import Shale.Replication.QuorumRead
import Shale.Transaction.ReadSet

/-!
# Reading back what a transaction has put

The value of the last `Put` of a key inside a transaction, followed through the write buffer,
the shipped commit and the owner's database into a later `Get` and a later read-check. With
one copy the database holds the bytes themselves. With several it holds an envelope, and an
envelope without payload is a tombstone: the surface of `Put` refuses an empty value for that
reason, and `tx.Put` does not.
-/

namespace Shale

open Position List Machine

namespace ClusterTx

variable {sharding : Sharding} {gs : GenState} {tx after : ClusterTx} {key : Bytes}

def WritesOnce (tx : ClusterTx) : Prop := (tx.writeBuf.map WriteOp.key).Nodup

def buffered (tx : ClusterTx) (key : Bytes) : Option (Option Bytes) :=
  (tx.writeBuf.find? fun op => op.key == key).map WriteOp.value

theorem key_of_find {ops : List WriteOp} {op : WriteOp}
    (found : ops.find? (fun op => op.key == key) = some op) : op.key = key := by
  simpa using List.find?_some found

theorem buffered_bufferWrite (tx : ClusterTx) (op : WriteOp) (key : Bytes) :
    (tx.bufferWrite op).buffered key = if op.key = key then some op.value else tx.buffered key := by
  unfold bufferWrite buffered
  split
  case isTrue present =>
    -- the operation takes the place of the earlier one, so keys stay where they are
    have keys : ((fun op : WriteOp => op.key == key) ∘
        fun earlier => if earlier.key = op.key then op else earlier) =
          fun earlier : WriteOp => earlier.key == key := by
      funext earlier
      simp only [Function.comp_apply]
      split
      case isTrue same => rw [same]
      case isFalse => rfl
    rw [List.find?_map, keys]
    split
    case isTrue same =>
      obtain ⟨earlier, found⟩ : ∃ earlier,
          tx.writeBuf.find? (fun op => op.key == key) = some earlier := by
        rw [← Option.isSome_iff_exists, List.find?_isSome]
        simpa [same] using present
      have named := (key_of_find found).trans same.symm
      simp [found, named]
    case isFalse other =>
      cases found : tx.writeBuf.find? fun op => op.key == key with
      | none => rfl
      | some earlier =>
        have kept : earlier.key ≠ op.key := fun same => other (same.symm.trans (key_of_find found))
        simp [kept]
  case isFalse absent =>
    rw [List.find?_append]
    split
    case isTrue same =>
      have missing : tx.writeBuf.find? (fun op => op.key == key) = none := by
        simpa [same] using absent
      simp [missing, same]
    case isFalse other => simp [other]

theorem WritesOnce.bufferWrite (once : tx.WritesOnce) (op : WriteOp) :
    (tx.bufferWrite op).WritesOnce := by
  unfold ClusterTx.bufferWrite
  split
  case isTrue =>
    have keys : (tx.writeBuf.map fun earlier => if earlier.key = op.key then op else earlier).map
        WriteOp.key = tx.writeBuf.map WriteOp.key := by
      rw [map_map]
      refine map_congr_left fun earlier _ => ?_
      simp only [Function.comp_apply]
      split
      case isTrue same => exact same.symm
      case isFalse => rfl
    rw [WritesOnce, keys]
    exact once
  case isFalse absent =>
    rw [WritesOnce, map_append, map_singleton]
    refine List.Nodup.append once (nodup_singleton _) ?_
    simpa [mem_map] using absent

theorem writeBuf_of_write {value : Option Bytes}
    (written : tx.write sharding gs key value = .ok after) :
    ∃ pinned : ClusterTx, pinned.writeBuf = tx.writeBuf ∧
      after = pinned.bufferWrite ⟨key, value⟩ := by
  unfold write at written
  split at written
  · cases written
  case h_2 pinned admitted =>
    obtain ⟨pin, rfl, -⟩ := of_guardShard admitted
    exact ⟨{ tx with pin := some pin }, rfl, (Except.ok.inj written).symm⟩

theorem writeBuf_of_get {routed answer : Option Bytes}
    (answered : tx.get sharding gs key routed = .ok (after, answer)) :
    after.writeBuf = tx.writeBuf := by
  unfold get at answered
  split at answered
  · cases answered
  case h_2 pinned admitted =>
    obtain ⟨pin, rfl, -⟩ := of_guardShard admitted
    split at answered
    · cases Except.ok.inj answered
      rfl
    · cases Except.ok.inj answered
      unfold recordRead
      split <;> rfl

theorem writeBuf_of_ships {pinKey : Bytes} {reads : List ReadCheck} {writes : List WriteOp}
    (shipped : tx.ships = some (pinKey, reads, writes)) : writes = tx.writeBuf := by
  unfold ships at shipped
  split at shipped
  · cases shipped
  · split at shipped
    · cases shipped
    · exact (Prod.mk.inj (Prod.mk.inj (Option.some.inj shipped)).2).2.symm

end ClusterTx

namespace Session

variable {sharding : Sharding} {s : Session} {key : Bytes}

def lastWrite (sharding : Sharding) (s : Session) (key : Bytes) :
    List (GenState × TxCall) → Option (Option Bytes)
  | [] => none
  | (gs, call) :: rest =>
    match lastWrite sharding (s.call sharding gs call) key rest with
    | some value => some value
    | none =>
      match call with
      | .write written value =>
        if written = key ∧ (s.tx.write sharding gs written value).toOption.isSome then
          some value
        else none
      | _ => none

theorem writeBuf_call (sharding : Sharding) (s : Session) (gs : GenState) (call : TxCall) :
    (s.call sharding gs call).tx.writeBuf = s.tx.writeBuf ∧
        (∀ written value, call = .write written value →
          (s.tx.write sharding gs written value).toOption = none) ∨
      ∃ (written : Bytes) (value : Option Bytes) (pinned : ClusterTx),
        call = .write written value ∧ (s.tx.write sharding gs written value).toOption.isSome ∧
        pinned.writeBuf = s.tx.writeBuf ∧
        (s.call sharding gs call).tx = pinned.bufferWrite ⟨written, value⟩ := by
  cases call with
  | get key routed =>
    refine .inl ⟨?_, fun _ _ same => by cases same⟩
    simp only [Session.call]
    split
    · rfl
    case h_2 tx value answered => exact ClusterTx.writeBuf_of_get answered
  | getFails key =>
    refine .inl ⟨?_, fun _ _ same => by cases same⟩
    simp only [Session.call]
    split
    · rfl
    case h_2 tx admitted =>
      obtain ⟨pin, rfl, -⟩ := ClusterTx.of_guardShard admitted
      rfl
  | write key value =>
    cases written : s.tx.write sharding gs key value with
    | error refusal =>
      refine .inl ⟨by simp [Session.call, written], ?_⟩
      rintro _ _ ⟨⟩
      simp [written, Except.toOption]
    | ok tx =>
      obtain ⟨pinned, same, rfl⟩ := ClusterTx.writeBuf_of_write written
      exact .inr ⟨key, value, pinned, rfl, by simp [written, Except.toOption], same,
        by simp [Session.call, written]⟩

theorem new_writesOnce : new.tx.WritesOnce := nodup_nil

theorem writesOnce_calls (once : s.tx.WritesOnce) (calls : List (GenState × TxCall)) :
    (s.calls sharding calls).tx.WritesOnce := by
  induction calls generalizing s with
  | nil => exact once
  | cons head rest ih =>
    refine ih ?_
    rcases writeBuf_call sharding s head.1 head.2 with
      ⟨same, -⟩ | ⟨written, value, pinned, -, -, same, next⟩
    · rwa [ClusterTx.WritesOnce, same]
    · rw [next]
      refine ClusterTx.WritesOnce.bufferWrite ?_ _
      rwa [ClusterTx.WritesOnce, same]

theorem buffered_calls (s : Session) (calls : List (GenState × TxCall)) (key : Bytes) :
    (s.calls sharding calls).tx.buffered key =
      (s.lastWrite sharding key calls).or (s.tx.buffered key) := by
  induction calls generalizing s with
  | nil => rfl
  | cons head rest ih =>
    obtain ⟨gs, call⟩ := head
    rw [calls, ih]
    simp only [lastWrite]
    cases later : (s.call sharding gs call).lastWrite sharding key rest with
    | some value => rfl
    | none =>
      rcases writeBuf_call sharding s gs call with
        ⟨same, refused⟩ | ⟨written, value, pinned, rfl, accepted, same, next⟩
      · have untouched : (s.call sharding gs call).tx.buffered key = s.tx.buffered key := by
          rw [ClusterTx.buffered, same]
          rfl
        cases call with
        | get _ _ | getFails _ => simpa using untouched
        | write written value => simpa [refused written value rfl] using untouched
      · have kept : pinned.buffered key = s.tx.buffered key := by
          rw [ClusterTx.buffered, same]
          rfl
        rw [next, ClusterTx.buffered_bufferWrite, kept]
        by_cases named : written = key
        · simp only [if_pos named, if_pos (And.intro named accepted), Option.or_some]
          rfl
        · simp [named]

theorem buffered_new_calls (sharding : Sharding) (calls : List (GenState × TxCall)) (key : Bytes) :
    (new.calls sharding calls).tx.buffered key = new.lastWrite sharding key calls := by
  rw [buffered_calls]
  exact Option.or_none

theorem mem_writeBuf_of_lastWrite {value : Option Bytes} {calls : List (GenState × TxCall)}
    (last : new.lastWrite sharding key calls = some value) :
    ⟨key, value⟩ ∈ (new.calls sharding calls).tx.writeBuf := by
  rw [← buffered_new_calls] at last
  obtain ⟨⟨written, _⟩, found, rfl⟩ := Option.map_eq_some_iff.mp last
  obtain rfl : written = key := ClusterTx.key_of_find found
  exact mem_of_find?_eq_some found

end Session

section Commit

variable {Value : Type} {layout : Position.Layout Value}

theorem Position.Layout.execute_of_mem (layout : Position.Layout Value) (stamp : Stamp)
    {ops : List WriteOp} {op : WriteOp} (once : (ops.map WriteOp.key).Nodup) (mem : op ∈ ops)
    (contents : Bytes → Option Value) :
    layout.execute stamp ops contents op.key = layout.entry stamp op := by
  induction ops generalizing contents with
  | nil => cases mem
  | cons first rest ih =>
    rw [map_cons, nodup_cons] at once
    rw [Position.Layout.execute, foldl_cons, ← Position.Layout.execute]
    rcases mem_cons.mp mem with rfl | later
    · rw [layout.execute_of_notMem stamp rest once.1, Function.update_self]
    · exact ih once.2 later _

theorem entry_of_reported {node : Nat} {sharding : Sharding} {calls : List (GenState × TxCall)}
    {key pinKey : Bytes} {value : Option Bytes} {call : Position.CasCall} {db : Store Value}
    {clock : Nat} {s s' : Position.State Value} {action : Position.Action Value} {stamp : Stamp}
    (last : Session.new.lastWrite sharding key calls = some value)
    (shipped : (Session.new.calls sharding calls).tx.ships =
      some (pinKey, call.reads, call.writes))
    (reached : (machine layout node).Reaches anyAction
      (initial db clock) s) (stepped : step layout node action s = some s')
    (finished : s'.finished = s.finished ++ [(call, .committed stamp)]) :
    s'.db.get key = layout.entry stamp ⟨key, value⟩ := by
  obtain ⟨tx, holder, rfl, phase, committed⟩ := commit_of_reported stepped finished
  have sound := (Position.Inv.of_reaches reached).commit holder
  rw [committed, (sound.at_commit phase).2, ClusterTx.writeBuf_of_ships shipped]
  exact layout.execute_of_mem stamp (Session.writesOnce_calls Session.new_writesOnce calls)
    (Session.mem_writeBuf_of_lastWrite last) s.db.get

end Commit

def multiReplicated (r : Nat) : Bool := decide (1 < r)

def Stored : Bool → Type
  | false => Bytes
  | true => Position.Cell

def layoutOf : (replicated : Bool) → Position.Layout (Stored replicated)
  | false => rawLayout
  | true => envelopeLayout

inductive GetError where
  | notFound
  | read (err : ReadError)
deriving DecidableEq

/-- A leg of a `Get`: it reads the owner's copy, or another, which holds this entry of the key,
or it does not get as far. -/
inductive CopyLeg where
  | owner
  | copy (stored : Option Position.Cell)
  | transient
  | unreachable
  | failed

def cellAnswer : Option Position.Cell → LegAnswer
  | none => .notFound
  | some (.envelope env) => .value env
  | some .corrupt => .undecodable

def CopyLeg.answer (owned : Option Position.Cell) : CopyLeg → LegAnswer
  | .owner => cellAnswer owned
  | .copy stored => cellAnswer stored
  | .transient => .transient
  | .unreachable => .unreachable
  | .failed => .failed

/-- What a `Get` asks: the owner with one copy, and with several the copies in its sweeps. -/
inductive Heard : Bool → Type where
  | owner : Heard false
  | sweeps (opts : ReadOpts) (stableR : Nat) (legs : List (List CopyLeg)) : Heard true

namespace Heard

/-- `Get`, where the owner's database holds this entry of the key. -/
def get : {replicated : Bool} → Heard replicated → Option (Stored replicated) →
    Except GetError Bytes
  | _, .owner, none => .error .notFound
  | _, .owner, some bytes => .ok bytes
  | _, .sweeps opts stableR legs, owned =>
    match getReplicatedUnit opts stableR (legs.map (List.map (CopyLeg.answer owned))) with
    | .error err => .error (.read err)
    | .ok env => if env.payload = [] then .error .notFound else .ok env.payload

/-- With several copies, the last sweep is the first that is answered, and it hears the owner's
envelope, from the owner or from a copy that holds it, and no newer one. -/
def Settled : {replicated : Bool} → Heard replicated → Option (Stored replicated) → Prop
  | _, .owner, _ => True
  | _, .sweeps opts stableR legs, owned => 0 < stableR ∧ ∃ env earlier last,
      owned = some (.envelope env) ∧ legs = earlier ++ [last] ∧
      HearsNewest opts.rc env (last.map (CopyLeg.answer owned)) ∧
      ∀ sweep ∈ earlier, sweep ≠ [] ∧ ∀ leg ∈ sweep, leg = .transient ∨ leg = .unreachable

theorem get_ne_empty (heard : Heard true) (owned : Option (Stored true)) :
    heard.get owned ≠ .ok [] := by
  obtain ⟨opts, stableR, legs⟩ := heard
  simp only [get]
  split
  · nofun
  · split
    · nofun
    case isFalse payload => exact fun same => payload (Except.ok.inj same)

theorem get_of_settled {heard : Heard true} {env : Envelope}
    (settled : heard.Settled (some (.envelope env))) :
    heard.get (some (.envelope env)) =
      if env.payload = [] then .error .notFound else .ok env.payload := by
  obtain ⟨opts, stableR, legs⟩ := heard
  obtain ⟨some_r, _, earlier, last, ⟨⟩, rfl, hears, silent⟩ := settled
  simp only [get, map_append, map_singleton]
  rw [getReplicatedUnit_of_silent, getReplicatedUnitOnce_of_newest some_r hears]
  intro sweep mem
  obtain ⟨legs, before, rfl⟩ := mem_map.mp mem
  obtain ⟨asked, waits⟩ := silent legs before
  refine ⟨by simpa using asked, fun answer heard => ?_⟩
  obtain ⟨leg, member, rfl⟩ := mem_map.mp heard
  rcases waits leg member with rfl | rfl <;> exact ⟨rfl, rfl⟩

end Heard

theorem reads_back_of_entry {replicated : Bool} {contents : Bytes → Option (Stored replicated)}
    {stamp : Stamp} {key value : Bytes}
    (stored : contents key = (layoutOf replicated).entry stamp ⟨key, some value⟩)
    {heard : Heard replicated} (settled : heard.Settled (contents key)) :
    heard.get (contents key) = .ok value ∧
        (layoutOf replicated).Matches contents ⟨key, some value⟩ ↔
      replicated = false ∨ value ≠ [] := by
  cases replicated with
  | false =>
    have found : contents key = some value := stored
    cases heard with
    | owner =>
      refine iff_of_true ⟨by rw [found]; rfl, ?_⟩ (.inl rfl)
      change (rawLayout.casReadPayload (contents key)).map Prod.fst = _
      rw [found]
      rfl
  | true =>
    have found : contents key = some (.envelope ⟨stamp, value⟩) := stored
    have checked : (layoutOf true).Matches contents ⟨key, some value⟩ ↔ value ≠ [] := by
      change (envelopeLayout.casReadPayload (contents key)).map Prod.fst =
        some (some value) ↔ _
      rw [found]
      by_cases empty : value = [] <;>
        simp [Position.Layout.casReadPayload, envelopeLayout, empty]
    rw [found] at settled
    rw [checked, found, Heard.get_of_settled settled]
    by_cases empty : value = [] <;> simp [empty]

def putsOnce (value : Bytes) : List (GenState × TxCall) :=
  [(.steady 0 .one, .write [1] (some value))]

def commitPut (value : Bytes) : List (Position.Action (Stored true)) :=
  [.call ⟨[], [⟨[1], some value⟩]⟩, .lockCas 0, .stepCas true 7, .stepCas true 7,
    .stepCas true 7, .stepCas true 7, .stepCas true 7, .stepCas true 7, .stepCas true 7,
    .stepCas true 7]

/-- The owner reports the transaction of one put as committed. -/
def CommitsPut (value : Bytes) (s s' : Position.State (Stored true)) : Prop :=
  (machine (layoutOf true) 1).Reaches anyAction (initial ∅ 0) s ∧
    step (layoutOf true) 1 (.stepCas true 7) s = some s' ∧
    s'.finished = s.finished ++ [(⟨[], [⟨[1], some value⟩]⟩, .committed ⟨7, 1⟩)]

/-- A leg that reads the owner's copy, and one of a copy that has applied the commit. -/
def heardTwice (value : Bytes) : Heard true :=
  .sweeps ⟨.quorum, false⟩ 2 [[.owner, .copy (some (.envelope ⟨⟨7, 1⟩, value⟩))]]

theorem heardTwice_settled (value : Bytes) :
    (heardTwice value).Settled (some (.envelope ⟨⟨7, 1⟩, value⟩)) := by
  refine ⟨by decide, _, [], _, rfl, rfl, ⟨by simp [CopyLeg.answer, cellAnswer], ?_⟩, nofun⟩
  exact fun answer mem _ => .inl (by simpa [CopyLeg.answer, cellAnswer] using mem)

end Shale
