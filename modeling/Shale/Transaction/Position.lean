import Shale.Foundation.Machine
import Shale.Replication.Envelope
import Shale.Storage.MemoryTx
import Shale.Transaction.ClusterTx

/-!
# The writers of one mounted position

The backend of one mounted position and the code that writes it, step by step at the
granularity of backend operations: the owner's validate-and-apply (`CommitCASApply`), which
runs under `casCommitMu`; the apply-if-newer transactions of a replicated position
(`applyEnvelopesTx`), which run under `applyMu`; and the plain writes of an unreplicated
one, which take neither lock. The backend's transactions are those of `memory.go`: they
read live and detect no conflict.

A call that waits for a lock has done nothing yet, so that a lock is held exactly while
`committing` or `applying` is there. What is stored is a parameter: raw bytes at one
replica, encoded envelopes at several.
-/

namespace Shale.Position

/-- How values are stored. `payload` is the payload of a stored value, where an inner `none`
is a tombstone, and `stamp` what `decodeStamp` makes of it; an outer `none` is a value that
does not decode. `entry` is what a commit stores for an operation, `none` for a plain
delete. -/
structure Layout (Value : Type) where
  replicated : Bool
  payload : Value → Option (Option Bytes)
  stamp : Value → Option Stamp
  entry : Stamp → WriteOp → Option Value

def rawLayout : Layout Bytes where
  replicated := false
  payload := fun bytes => some (some bytes)
  stamp := fun _ => some Stamp.zero
  entry := fun _ op => op.value

/-- A stored value of a replicated position: an envelope, which for a value without the
magic byte has the zero stamp, or bytes whose header does not parse. -/
inductive Cell where
  | envelope (env : Envelope)
  | corrupt
deriving DecidableEq

def envelopeLayout : Layout Cell where
  replicated := true
  payload
    | .envelope env => some (if env.payload = [] then none else some env.payload)
    | .corrupt => none
  stamp
    | .envelope env => some env.stamp
    | .corrupt => none
  entry := fun stamp op => some (.envelope ⟨stamp, op.value.getD []⟩)

namespace Layout

variable {Value : Type} (layout : Layout Value)

def casReadPayload : Option Value → Option (Option Bytes × Stamp)
  | none => some (none, Stamp.zero)
  | some value =>
    match layout.payload value, layout.stamp value with
    | some found, some stamp => some (found, stamp)
    | _, _ => none

def blindStamp : Option Value → Option Stamp
  | none => some Stamp.zero
  | some value => layout.stamp value

def storedStamp (value : Value) : Stamp := (layout.stamp value).getD Stamp.zero

def txApplyIfNewer (incoming : Stamp) : Option Value → Bool × Stamp
  | none => (true, Stamp.zero)
  | some value => (incoming.greater (layout.storedStamp value), layout.storedStamp value)

end Layout

def maxStamp : Nat := 2 ^ 64 - 1

def nextStamp (last wall : Nat) : Nat :=
  if wall ≤ last then if last = maxStamp then maxStamp else last + 1 else wall

theorem lt_nextStamp {last : Nat} (below : last ≠ maxStamp) (wall : Nat) :
    last < nextStamp last wall := by
  unfold nextStamp
  split_ifs <;> omega

theorem le_nextStamp (last wall : Nat) : last ≤ nextStamp last wall := by
  unfold nextStamp
  split_ifs <;> omega

/-- The arguments of a `CommitCASApply`. -/
structure CasCall where
  reads : List ReadCheck
  writes : List WriteOp
deriving DecidableEq

/-- How far a `CommitCASApply` has come that holds `casCommitMu`. `judging` has read the
value of a check and not yet compared it; `noting` has read the stamp of a blind key and
not yet observed it. -/
inductive CasPhase (Value : Type) where
  | locked
  | begun
  | validating (todo : List ReadCheck)
  | judging (check : ReadCheck) (got : Option Value) (since : Nat) (todo : List ReadCheck)
  | observing (todo : List WriteOp) (noted : List Bytes)
  | noting (key : Bytes) (stamp : Stamp) (todo : List WriteOp) (noted : List Bytes)
  | stamping
  | writing (stamp : Stamp) (todo : List WriteOp)

/-- A `CommitCASApply` inside its critical section. `validated` lists the checks that have
passed, each with the number of foreign writes that had been made when it was read. -/
structure CasTx (Value : Type) where
  call : CasCall
  phase : CasPhase Value
  overlay : MemoryTx Value
  validated : List (ReadCheck × Nat)

def CasTx.Blind {Value : Type} (tx : CasTx Value) (op : WriteOp) (noted : List Bytes) : Prop :=
  op.key ∉ tx.call.reads.map ReadCheck.key ∧ op.key ∉ noted

instance {Value : Type} (tx : CasTx Value) (op : WriteOp) (noted : List Bytes) :
    Decidable (tx.Blind op noted) :=
  inferInstanceAs (Decidable (_ ∧ _))

/-- The next step of the commit asks the backend or the context, which may fail. -/
def CasTx.asks {Value : Type} (tx : CasTx Value) : Bool :=
  match tx.phase with
  | .locked | .begun | .validating (_ :: _) | .writing _ _ => true
  | .observing (op :: _) noted => decide (tx.Blind op noted)
  | _ => false

/-- How a `CommitCASApply` returns from its critical section. -/
inductive Outcome where
  | committed (stamp : Stamp)
  | conflict
  | failed
deriving DecidableEq

/-- How far an `applyEnvelopesTx` has come with one entry of its batch. -/
inductive ApplyPhase (Value : Type) where
  | next
  | incoming (key : Bytes) (value : Value) (stamp : Stamp)
  | reading (key : Bytes) (value : Value) (stamp : Stamp)
  | comparing (key : Bytes) (value : Value) (stored : Stamp) (apply : Bool)
  | putting (key : Bytes) (value : Value)

/-- An `applyEnvelopesTx` inside its critical section. -/
structure ApplyTx (Value : Type) where
  todo : List (Bytes × Value)
  phase : ApplyPhase Value
  overlay : MemoryTx Value

def ApplyTx.asks {Value : Type} (tx : ApplyTx Value) : Bool :=
  match tx.phase with
  | .next => tx.todo.isEmpty
  | .reading .. | .putting .. => true
  | _ => false

/-- The position: the contents of its backend, the mark of the node's stamp clock, the
commits waiting for `casCommitMu`, the holders of the two locks, the keys written by others
than commits in order, and the calls that have returned. -/
structure State (Value : Type) where
  db : Store Value
  clock : Nat
  waiting : List CasCall
  committing : Option (CasTx Value)
  applying : Option (ApplyTx Value)
  foreign : List Bytes
  finished : List (CasCall × Outcome)

variable {Value : Type}

namespace State

variable (s : State Value)

def observe (timestamp : Nat) : State Value := { s with clock := max s.clock timestamp }

def finish (tx : CasTx Value) (outcome : Outcome) : State Value :=
  { s with committing := none, finished := s.finished ++ [(tx.call, outcome)] }

def setPhase (tx : CasTx Value) (phase : CasPhase Value) : State Value :=
  { s with committing := some { tx with phase } }

def setApply (tx : ApplyTx Value) : State Value := { s with applying := some tx }

def rollback : State Value := { s with applying := none }

end State

section Steps

variable (layout : Layout Value) (node : Nat)

def casAdvance (wall : Nat) (s : State Value) (tx : CasTx Value) : State Value :=
  match tx.phase with
  | .locked => s.setPhase tx .begun
  | .begun => s.setPhase tx (.validating tx.call.reads)
  | .validating (check :: todo) =>
    s.setPhase tx (.judging check (tx.overlay.get s.db check.key) s.foreign.length todo)
  | .judging check got since todo =>
    match layout.casReadPayload got with
    | none => s.finish tx .failed
    | some (found, stamp) =>
      let seen := s.observe stamp.timestamp
      if found = check.expected then
        seen.setPhase { tx with validated := tx.validated ++ [(check, since)] }
          (.validating todo)
      else seen.finish tx .conflict
  | .validating [] =>
    if layout.replicated then s.setPhase tx (.observing tx.call.writes [])
    else s.setPhase tx (.writing Stamp.zero tx.call.writes)
  | .observing (op :: todo) noted =>
    if tx.Blind op noted then
      match layout.blindStamp (tx.overlay.get s.db op.key) with
      | none => s.finish tx .failed
      | some stamp => s.setPhase tx (.noting op.key stamp todo noted)
    else s.setPhase tx (.observing todo noted)
  | .noting key stamp todo noted =>
    (s.observe stamp.timestamp).setPhase tx (.observing todo (key :: noted))
  | .observing [] _ => s.setPhase tx .stamping
  | .stamping =>
    let issued := nextStamp s.clock wall
    { s with clock := issued }.setPhase tx (.writing ⟨issued, node⟩ tx.call.writes)
  | .writing stamp (op :: todo) =>
    s.setPhase { tx with overlay := tx.overlay.write op.key (layout.entry stamp op) }
      (.writing stamp todo)
  | .writing stamp [] => { s.finish tx (.committed stamp) with db := tx.overlay.commit s.db }

def casStep (ok : Bool) (wall : Nat) (s : State Value) : Option (State Value) :=
  match s.committing with
  | none => none
  | some tx =>
    if ok then some (casAdvance layout node wall s tx)
    else if tx.asks then some (s.finish tx .failed)
    else none

/-- The next step of the apply in its critical section, where nothing it asks fails. An
entry that does not decode rolls it back. -/
def applyAdvance (s : State Value) (tx : ApplyTx Value) : State Value :=
  match tx.phase with
  | .next =>
    match tx.todo with
    | [] =>
      { s.rollback with
        db := tx.overlay.commit s.db
        foreign := s.foreign ++ tx.overlay.writes.keys }
    | (key, value) :: todo =>
      match layout.stamp value with
      | none => s.rollback
      | some stamp => s.setApply ⟨todo, .incoming key value stamp, tx.overlay⟩
  | .incoming key value stamp =>
    (s.observe stamp.timestamp).setApply { tx with phase := .reading key value stamp }
  | .reading key value stamp =>
    let (apply, stored) := layout.txApplyIfNewer stamp (tx.overlay.get s.db key)
    s.setApply { tx with phase := .comparing key value stored apply }
  | .comparing key value stored apply =>
    (s.observe stored.timestamp).setApply
      { tx with phase := if apply then .putting key value else .next }
  | .putting key value => s.setApply ⟨tx.todo, .next, tx.overlay.put key value⟩

def applyStep (ok : Bool) (s : State Value) : Option (State Value) :=
  match s.applying with
  | none => none
  | some tx =>
    if ok then some (applyAdvance layout s tx)
    else if tx.asks then some s.rollback
    else none

/-- The steps of the position. `plain` is the write of a `Put` or `Delete` at one replica,
`observe` any other stamp that the node sees. -/
inductive Action (Value : Type) where
  | call (call : CasCall)
  | lockCas (i : Nat)
  | stepCas (ok : Bool) (wall : Nat)
  | lockApply (writes : List (Bytes × Value))
  | stepApply (ok : Bool)
  | plain (key : Bytes) (effect : Option Value)
  | observe (timestamp : Nat)

def step (action : Action Value) (s : State Value) : Option (State Value) :=
  match action with
  | .call call => some { s with waiting := s.waiting ++ [call] }
  | .lockCas i =>
    match s.committing, s.waiting[i]? with
    | none, some call =>
      some { s with
        waiting := s.waiting.eraseIdx i
        committing := some ⟨call, .locked, MemoryTx.begin, []⟩ }
    | _, _ => none
  | .stepCas ok wall => casStep layout node ok wall s
  | .lockApply writes =>
    match s.applying with
    | some _ => none
    | none =>
      if layout.replicated then some (s.setApply ⟨writes, .next, MemoryTx.begin⟩) else none
  | .stepApply ok => applyStep layout ok s
  | .plain key effect =>
    if layout.replicated then none
    else some { s with db := s.db.write key effect, foreign := s.foreign ++ [key] }
  | .observe timestamp => some (s.observe timestamp)

def machine : Machine (State Value) (Action Value) := ⟨step layout node⟩

@[simp] theorem machine_step : (machine layout node).step = step layout node := rfl

def initial (db : Store Value) (clock : Nat) : State Value where
  db
  clock
  waiting := []
  committing := none
  applying := none
  foreign := []
  finished := []

end Steps

section Inversion

variable {layout : Layout Value} {node wall i : Nat} {ok : Bool} {s s' : State Value}

theorem of_answer {asks : Prop} [Decidable asks] {done failed : State Value}
    (stepped : (if ok then some done else if asks then some failed else none) = some s') :
    ok = true ∧ s' = done ∨ ok = false ∧ s' = failed := by
  cases ok with
  | true => exact .inl ⟨rfl, (Option.some.inj stepped).symm⟩
  | false =>
    exact .inr ⟨rfl, (Machine.of_guard stepped).2.symm⟩

theorem of_casStep (stepped : casStep layout node ok wall s = some s') :
    ∃ tx, s.committing = some tx ∧
      (ok = true ∧ s' = casAdvance layout node wall s tx ∨
        ok = false ∧ s' = s.finish tx .failed) := by
  unfold casStep at stepped
  split at stepped
  case h_1 => cases stepped
  case h_2 tx holder => exact ⟨tx, holder, of_answer stepped⟩

theorem of_applyStep (stepped : applyStep layout ok s = some s') :
    ∃ tx, s.applying = some tx ∧
      (ok = true ∧ s' = applyAdvance layout s tx ∨ ok = false ∧ s' = s.rollback) := by
  unfold applyStep at stepped
  split at stepped
  case h_1 => cases stepped
  case h_2 tx holder => exact ⟨tx, holder, of_answer stepped⟩

theorem of_lockCas (stepped : step layout node (.lockCas i) s = some s') :
    ∃ call, s' =
      { s with
        waiting := s.waiting.eraseIdx i
        committing := some ⟨call, .locked, MemoryTx.begin, []⟩ } := by
  simp only [step] at stepped
  split at stepped
  · exact ⟨_, (Option.some.inj stepped).symm⟩
  · cases stepped

theorem of_lockApply {writes : List (Bytes × Value)}
    (stepped : step layout node (.lockApply writes) s = some s') :
    s' = s.setApply ⟨writes, .next, MemoryTx.begin⟩ := by
  simp only [step] at stepped
  split at stepped
  · cases stepped
  · split at stepped
    · exact (Option.some.inj stepped).symm
    · cases stepped

theorem of_plain {key : Bytes} {effect : Option Value}
    (stepped : step layout node (.plain key effect) s = some s') :
    s' = { s with db := s.db.write key effect, foreign := s.foreign ++ [key] } := by
  simp only [step] at stepped
  split at stepped
  · cases stepped
  · exact (Option.some.inj stepped).symm

end Inversion

end Shale.Position
