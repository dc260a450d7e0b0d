import Mathlib.Data.List.Sort
import Shale.Foundation.Machine
import Shale.Storage.Generation
import Shale.Storage.Store

/-!
# Resharding one node online

The inline `Reshard` of `multibackend_reshard.go` on a single node at one replica,
running against any number of client `Put` and `Delete` calls. A call is the sequence of
`withLocalWriteBackend`: snapshot the count, take the read side of the pause of the unit
under it, resolve the generation unit from a second snapshot, look the mount up, apply,
release. The resharder doubles the count, bisects every mounted unit of the generation
and advances. `machine` interleaves the two at the granularity of these steps.

An apply that fails leaves the database as it was, and a `Reshard` that returns an error
has no step: its call stays in flight.
-/

namespace Shale.SingleNode

open Function

/-- A client write: `Put` of a value, or `Delete` when there is none. -/
structure Request where
  key : Bytes
  effect : Option Bytes
deriving DecidableEq

inductive CallPhase where
  | begun
  | counted (pause : Nat)
  | locked (pause : Nat)
  | resolved (pause : Nat) (unit : GenUnit)
  | missed (pause : Nat) (unit : GenUnit)
  | bound (pause : Nat) (unit : GenUnit) (handle : Nat)
  | failed (pause : Nat) (unit : GenUnit) (handle : Nat)
  | finishing (pause : Nat) (acked : Bool)
  | returned (acked : Bool)
deriving DecidableEq

namespace CallPhase

def readLock : CallPhase → Option Nat
  | locked pause | resolved pause _ | missed pause _ | bound pause _ _ | failed pause _ _
  | finishing pause _ => some pause
  | begun | counted _ | returned _ => none

def pendingPause : CallPhase → Option Nat
  | counted pause | locked pause | resolved pause _ | missed pause _
  | bound pause _ _ => some pause
  | begun | failed _ _ _ | finishing _ _ | returned _ => none

def target : CallPhase → Option GenUnit
  | resolved _ unit | missed _ unit | bound _ unit _ => some unit
  | begun | counted _ | locked _ | failed _ _ _ | finishing _ _ | returned _ => none

end CallPhase

structure Call where
  request : Request
  phase : CallPhase
deriving DecidableEq

/-- Where the resharder stands. `next` is the doubled count, `unit` the old unit being
bisected, `rest` the scanned entries still to copy, and `todo` the units after it. -/
inductive ReshardPhase where
  | idle
  | entered (next : UnitCount)
  | marching (next : UnitCount) (todo : List Nat)
  | opened (next : UnitCount) (unit : Nat) (todo : List Nat)
  | sourced (next : UnitCount) (unit : Nat) (todo : List Nat)
  | copying (next : UnitCount) (unit : Nat) (rest : List (Bytes × Bytes)) (todo : List Nat)
  | paused (next : UnitCount) (unit : Nat) (todo : List Nat)
  | clearedLow (next : UnitCount) (unit : Nat) (todo : List Nat)
  | cleared (next : UnitCount) (unit : Nat) (todo : List Nat)
  | recopying (next : UnitCount) (unit : Nat) (rest : List (Bytes × Bytes)) (todo : List Nat)
  | flipped (next : UnitCount) (unit : Nat) (todo : List Nat)
  | unlocked (next : UnitCount) (unit : Nat) (todo : List Nat)
  | reconciling
deriving DecidableEq

def ReshardPhase.writeLock : ReshardPhase → Option Nat
  | paused _ unit _ | clearedLow _ unit _ | cleared _ unit _ | recopying _ unit _ _
  | flipped _ unit _ => some unit
  | _ => none

/-- The node. `mounts` maps a unit to the handle mounted for it, `handles` counts the
handles given out, and `acked` records the effect of the last acked write on each key. -/
structure State where
  gs : GenState
  db : GenUnit → Store Bytes
  mounts : AList (fun _ : GenUnit => Nat)
  handles : Nat
  calls : List Call
  reshard : ReshardPhase
  acked : Bytes → Option Bytes

namespace State

variable (s : State)

def hasReader (pause : Nat) : Bool :=
  s.calls.any fun call => call.phase.readLock == some pause

def mountedOldUnits (gen : Nat) : List Nat :=
  ((s.mounts.keys.filter fun unit => unit.gen == gen).map GenUnit.id).insertionSort (· ≤ ·)

def setPhase (i : Nat) (call : Call) (phase : CallPhase) : State :=
  { s with calls := s.calls.set i { call with phase } }

def evictIfSame (unit : GenUnit) (handle : Nat) : State :=
  if s.mounts.lookup unit = some handle then { s with mounts := s.mounts.erase unit } else s

def mountFresh (unit : GenUnit) : State :=
  { s with mounts := s.mounts.insert unit s.handles, handles := s.handles + 1 }

/-- The units reconcile keeps mounted on a node that owns everything. -/
def desired (unit : GenUnit) : Bool :=
  unit.gen == s.gs.gen && s.gs.count.contains unit.id

end State

variable (hash : Bytes → ShardHash)

def callStep (i : Nat) (succeeds : Bool) (s : State) : Option State :=
  match s.calls[i]? with
  | none => none
  | some call =>
    let key := call.request.key
    match call.phase with
    | .begun => some (s.setPhase i call (.counted (unitForHash (hash key) s.gs.count)))
    | .counted pause =>
      if s.reshard.writeLock = some pause then none
      else some (s.setPhase i call (.locked pause))
    | .locked pause =>
      some (s.setPhase i call (.resolved pause (s.gs.resolveGenUnit (hash key))))
    | .resolved pause unit =>
      match s.mounts.lookup unit with
      | some handle => some (s.setPhase i call (.bound pause unit handle))
      | none => some (s.setPhase i call (.missed pause unit))
    | .missed pause unit =>
      -- `lowestForUnit`: the only position of a unit is the one just missed
      match s.mounts.lookup unit with
      | some handle => some (s.setPhase i call (.bound pause unit handle))
      | none => some (s.setPhase i call (.finishing pause false))
    | .bound pause unit handle =>
      if succeeds then
        some { s.setPhase i call (.finishing pause true) with
          db := update s.db unit ((s.db unit).write key call.request.effect)
          acked := update s.acked key call.request.effect }
      else some (s.setPhase i call (.failed pause unit handle))
    | .failed pause unit handle =>
      some ((s.evictIfSame unit handle).setPhase i call (.finishing pause false))
    | .finishing _ acked => some (s.setPhase i call (.returned acked))
    | .returned _ => none

def copyTarget (old next : UnitCount) (k : Nat) (key : Bytes) : Nat :=
  if unitForHash (hash key) next = unitForHash (hash key) old then k else k + old.n

section CopyTarget

variable {hash} {old next : UnitCount} {k : Nat}

theorem copyTarget_mod (hash : Bytes → ShardHash) (inRange : k < old.n) (key : Bytes) :
    copyTarget hash old next k key % old.n = k := by
  unfold copyTarget
  split
  · exact Nat.mod_eq_of_lt inRange
  · rw [Nat.add_mod_right, Nat.mod_eq_of_lt inRange]

theorem copyTarget_eq (twice : next.n = 2 * old.n) {key : Bytes}
    (own : unitForHash (hash key) old = k) :
    copyTarget hash old next k key = unitForHash (hash key) next := by
  unfold copyTarget
  split
  case isTrue low => rw [low, own]
  case isFalse high =>
    rcases unitForHash_double_mem_childUnits twice (hash key) with low | up
    · exact absurd low high
    · rw [up, own]

end CopyTarget

def copyEntry (next : UnitCount) (k : Nat) (entry : Bytes × Bytes) (s : State) : State :=
  let child : GenUnit :=
    { gen := s.gs.gen + 1, id := copyTarget hash s.gs.count next k entry.1 }
  { s with db := update s.db child ((s.db child).put entry.1 entry.2) }

/-- `clearBackend` of one child. Nothing routes to a child before its parent's flip, so
the deletes are one step. -/
def clearUnit (unit : GenUnit) (s : State) : State :=
  { s with db := update s.db unit (s.db unit).clear }

def reshardStep (s : State) : Option State :=
  match s.reshard with
  | .idle => none
  | .entered next =>
    some { s with reshard := .marching next (s.mountedOldUnits s.gs.gen) }
  | .marching next [] =>
    some { s with gs := s.gs.advance next, reshard := .reconciling }
  | .marching next (k :: todo) =>
    match childUnits k s.gs.count with
    | .error _ => none
    | .ok (low, high) =>
      let lowMounted := s.mountFresh { gen := s.gs.gen + 1, id := low }
      let bothMounted := lowMounted.mountFresh { gen := s.gs.gen + 1, id := high }
      some { bothMounted with reshard := .opened next k todo }
  | .opened next k todo =>
    if (s.mounts.lookup { gen := s.gs.gen, id := k }).isSome then
      some { s with reshard := .sourced next k todo }
    else none
  | .sourced next k todo =>
    let entries := (s.db { gen := s.gs.gen, id := k }).scan
    some { s with reshard := .copying next k entries todo }
  | .copying next k (entry :: rest) todo =>
    some { (copyEntry hash next k entry s) with reshard := .copying next k rest todo }
  | .copying next k [] todo =>
    if s.hasReader k then none else some { s with reshard := .paused next k todo }
  | .paused next k todo =>
    some { (clearUnit { gen := s.gs.gen + 1, id := k } s) with
      reshard := .clearedLow next k todo }
  | .clearedLow next k todo =>
    some { (clearUnit { gen := s.gs.gen + 1, id := k + s.gs.count.n } s) with
      reshard := .cleared next k todo }
  | .cleared next k todo =>
    let entries := (s.db { gen := s.gs.gen, id := k }).scan
    some { s with reshard := .recopying next k entries todo }
  | .recopying next k (entry :: rest) todo =>
    some { (copyEntry hash next k entry s) with reshard := .recopying next k rest todo }
  | .recopying next k [] todo =>
    some { s with gs := s.gs.cutOverUnit k, reshard := .flipped next k todo }
  | .flipped next k todo => some { s with reshard := .unlocked next k todo }
  | .unlocked next k todo =>
    some { s with
      mounts := s.mounts.erase { gen := s.gs.gen, id := k }
      reshard := .marching next todo }
  | .reconciling => some { s with reshard := .idle }

/-- The steps of the node. `call` admits a client write, `reshard` admits a `Reshard`
that can double, and `acquire` and `release` are what reconcile does to one unit. -/
inductive Action where
  | call (request : Request)
  | stepCall (i : Nat) (succeeds : Bool)
  | reshard
  | stepReshard
  | acquire (unit : GenUnit)
  | release (unit : GenUnit)
deriving DecidableEq

def ReshardPhase.reconciles : ReshardPhase → Bool
  | .idle | .reconciling => true
  | _ => false

def step (action : Action) (s : State) : Option State :=
  match action with
  | .call request =>
    -- `Cluster.Put` refuses an empty value
    if request.effect = some [] then none
    else some { s with calls := s.calls ++ [{ request, phase := .begun }] }
  | .stepCall i succeeds => callStep hash i succeeds s
  | .reshard =>
    if s.reshard = .idle then
      match s.gs.count.double with
      | .error _ => none
      | .ok next => some { s with gs := s.gs.enter next, reshard := .entered next }
    else none
  | .stepReshard => reshardStep hash s
  | .acquire unit =>
    if s.reshard.reconciles ∧ s.desired unit ∧ s.mounts.lookup unit = none then
      some (s.mountFresh unit)
    else none
  | .release unit =>
    if s.reshard.reconciles ∧ ¬ s.desired unit then
      some { s with mounts := s.mounts.erase unit }
    else none

def machine : Machine State Action := ⟨step hash⟩

/-- The answer of `Cluster.Get`: the value stored in the unit the key resolves to, or
the retryable acquiring error where that unit is not mounted. -/
inductive GetResult where
  | value (stored : Option Bytes)
  | acquiring
deriving DecidableEq

def get (s : State) (key : Bytes) : GetResult :=
  let unit := s.gs.resolveGenUnit (hash key)
  if (s.mounts.lookup unit).isSome then .value ((s.db unit).get key) else .acquiring

def Quiescent (s : State) : Prop :=
  s.reshard = .idle ∧
    ∀ call ∈ s.calls, call.phase = .returned true ∨ call.phase = .returned false

instance : DecidablePred Quiescent := fun _ => inferInstanceAs (Decidable (_ ∧ _))

/-- A node just opened: any generation and contents, no reshard and no call in flight. -/
structure Initial (s : State) : Prop where
  steady : s.gs = GenState.steady s.gs.gen s.gs.count
  idle : s.reshard = .idle
  noCalls : s.calls = []
  acked : ∀ key, s.acked key = (s.db (s.gs.resolveGenUnit (hash key))).get key

end Shale.SingleNode
