import Shale.Foundation.Calls
import Shale.Foundation.CondStore
import Shale.Storage.Units

/-!
# The reshard arbiter

`pkg/reshard`: the unit count that a cluster agrees on is one object of a conditional store,
the `epoch` object. Every node seeds, reads, retargets and advances it by itself; a call is a
sequence of accesses to the store between which the accesses of other calls may fall.

The stored bytes are the wire record of the state. Its JSON text is left out, so that two
objects hold the same bytes exactly if they hold the same record.
-/

namespace Shale.Arbiter

inductive Plan where
  | none
  | split
  | merge
deriving DecidableEq, Repr

def Plan.string : Plan → String
  | .none => "none"
  | .split => "split"
  | .merge => "merge"

/-- `State`, over the type of its epoch: the `uint64` of the source, which wraps, or a count
without bound. -/
structure State (Epoch : Type) where
  epoch : Epoch
  count : UnitCount
  target : UnitCount
  plan : Plan
deriving DecidableEq

def stateSchemaVersion : Int := 1

structure StateWire where
  v : Int
  epoch : UInt64
  count : Int
  target : Int
  plan : String
deriving DecidableEq

def State.encode (s : State UInt64) : StateWire where
  v := stateSchemaVersion
  epoch := s.epoch
  count := s.count.n
  target := s.target.n
  plan := s.plan.string

def decodeState (w : StateWire) : Except String (State UInt64) :=
  if w.v ≠ stateSchemaVersion then
    .error ("reshard: decode state: unsupported schema version " ++ toString w.v ++
      " (this node speaks " ++ toString stateSchemaVersion ++ ")")
  else
    match UnitCount.new w.count, UnitCount.new w.target with
    | .error err, _ => .error ("reshard: decode state count: " ++ err)
    | .ok _, .error err => .error ("reshard: decode state target: " ++ err)
    | .ok count, .ok target =>
      if w.plan = "none" then .ok ⟨w.epoch, count, target, .none⟩
      else if w.plan = "split" then .ok ⟨w.epoch, count, target, .split⟩
      else if w.plan = "merge" then .ok ⟨w.epoch, count, target, .merge⟩
      else .error ("reshard: decode state: unknown plan " ++ w.plan.quote)

@[simp] theorem decodeState_encode (s : State UInt64) : decodeState s.encode = .ok s := by
  obtain ⟨epoch, count, target, plan⟩ := s
  cases plan <;> simp [decodeState, State.encode, Plan.string, UnitCount.new_n]

theorem encode_injective {s t : State UInt64} (same : s.encode = t.encode) : s = t := by
  have decoded := decodeState_encode s
  rw [same, decodeState_encode] at decoded
  exact (Except.ok.inj decoded).symm

section Epochs

variable {Epoch : Type} [Add Epoch] [OfNat Epoch 0] [OfNat Epoch 1]

def planNext (cur : State Epoch) : Except String (Option (State Epoch)) :=
  if cur.target.n = cur.count.n then .ok none
  else if cur.count.n < cur.target.n then
    match cur.count.double with
    | .error err => .error err
    | .ok next => .ok (some ⟨cur.epoch + 1, next, cur.target, .split⟩)
  else
    match cur.count.halve with
    | .error err => .error err
    | .ok next => .ok (some ⟨cur.epoch + 1, next, cur.target, .merge⟩)

def State.retarget (cur : State Epoch) (target : UnitCount) : State Epoch := { cur with target }

def State.seed (initial : UnitCount) : State Epoch := ⟨0, initial, initial, .none⟩

/-- What happens to the object, each at one moment. -/
inductive Event where
  | seed (initial : UnitCount)
  | retarget (target : UnitCount)
  | advance
deriving DecidableEq

def atomic : Machine (Option (State Epoch)) Event where
  step
    | .seed initial, none => some (some (State.seed initial))
    | .seed _, some _ => none
    | .retarget target, some cur =>
      if cur.target.n = target.n then none else some (some (cur.retarget target))
    | .advance, some cur =>
      match planNext cur with
      | .ok (some next) => some (some next)
      | _ => none
    | _, none => none

theorem atomic_cases {event : Event} {cur after : Option (State Epoch)}
    (stepped : atomic.step event cur = some after) :
    (∃ initial, event = .seed initial ∧ cur = none ∧ after = some (State.seed initial)) ∨
      (∃ target before, event = .retarget target ∧ cur = some before ∧
        before.target.n ≠ target.n ∧ after = some (before.retarget target)) ∨
      ∃ before next, event = .advance ∧ cur = some before ∧ planNext before = .ok (some next) ∧
        after = some next := by
  cases event with
  | seed initial =>
    cases cur with
    | none => exact .inl ⟨initial, rfl, rfl, (Option.some.inj stepped).symm⟩
    | some before => cases stepped
  | retarget target =>
    cases cur with
    | none => cases stepped
    | some before =>
      simp only [atomic] at stepped
      split at stepped
      · cases stepped
      case isFalse apart =>
        exact .inr (.inl ⟨target, before, rfl, rfl, apart, (Option.some.inj stepped).symm⟩)
  | advance =>
    cases cur with
    | none => cases stepped
    | some before =>
      simp only [atomic] at stepped
      split at stepped
      case h_1 next planned =>
        exact .inr (.inr ⟨before, next, rfl, rfl, planned, (Option.some.inj stepped).symm⟩)
      case h_2 => cases stepped

end Epochs

def retargetAttempts : Nat := 8

/-- The calls that a node makes. -/
inductive Op where
  | seed (initial : UnitCount)
  | read
  | retarget (target : UnitCount)
  | advance
deriving DecidableEq

/-- How a call fails: the object is not there, its bytes do not decode, the next count does not
exist, the store did not answer, or a `Retarget` has lost every race. -/
inductive CallError where
  | condNotFound
  | decode (message : String)
  | plan (message : String)
  | store (doing : String)
  | exhausted (last : State UInt64) (message : String)
deriving DecidableEq

/-- What a call returns. `performed` is the flag of `Advance`, and false for the others. -/
inductive Result where
  | state (s : State UInt64) (performed : Bool)
  | failed (err : CallError)
deriving DecidableEq

/-- How far a call has come: the access it makes next, with what it has read. -/
inductive Phase (Version : Type) where
  | seedPut (initial : UnitCount)
  | reading
  | retargetRead (target : UnitCount) (left : Nat)
  | retargetSet (target : UnitCount) (left : Nat) (cur : State UInt64) (ver : Version)
  | advanceRead
  | advanceSet (next : State UInt64) (ver : Version)
  | returned (result : Result)
deriving DecidableEq

variable {Version : Type} [DecidableEq Version]

def Op.start : Op → Phase Version
  | .seed initial => .seedPut initial
  | .read => .reading
  | .retarget target => .retargetRead target retargetAttempts
  | .advance => .advanceRead

def read (vs : Versions StateWire Version) (obj : CondObject StateWire) :
    Except CallError (State UInt64 × Version) :=
  match obj.get vs with
  | none => .error .condNotFound
  | some (data, ver) =>
    match decodeState data with
    | .error message => .error (.decode message)
    | .ok st => .ok (st, ver)

def access (vs : Versions StateWire Version) (obj : CondObject StateWire) :
    Phase Version → CondObject StateWire × Phase Version
  | .seedPut initial =>
    match obj.putIfAbsent (State.seed initial).encode with
    | some obj => (obj, .returned (.state (State.seed initial) false))
    | none => (obj, .reading)
  | .reading =>
    match read vs obj with
    | .error err => (obj, .returned (.failed err))
    | .ok (st, _) => (obj, .returned (.state st false))
  | .retargetRead target left =>
    match read vs obj with
    | .error err => (obj, .returned (.failed err))
    | .ok (cur, ver) =>
      if cur.target.n = target.n then (obj, .returned (.state cur false))
      else (obj, .retargetSet target left cur ver)
  | .retargetSet target left cur ver =>
    match obj.compareAndSet vs (cur.retarget target).encode ver with
    | some obj => (obj, .returned (.state (cur.retarget target) false))
    | none =>
      if left ≤ 1 then
        (obj, .returned (.failed (.exhausted cur ("reshard: retarget: exhausted " ++
          toString retargetAttempts ++ " attempts under contention"))))
      else (obj, .retargetRead target (left - 1))
  | .advanceRead =>
    match read vs obj with
    | .error err => (obj, .returned (.failed err))
    | .ok (cur, ver) =>
      match planNext cur with
      | .error message => (obj, .returned (.failed (.plan message)))
      | .ok none => (obj, .returned (.state cur false))
      | .ok (some next) => (obj, .advanceSet next ver)
  | .advanceSet next ver =>
    match obj.compareAndSet vs next.encode ver with
    | some obj => (obj, .returned (.state next true))
    | none => (obj, .reading)
  | .returned result => (obj, .returned result)

def Phase.doing : Phase Version → String
  | .seedPut _ => "reshard: seed: "
  | .retargetSet .. => "reshard: retarget: "
  | .advanceSet .. => "reshard: advance: "
  | _ => ""

def Phase.isReturned : Phase Version → Bool
  | .returned _ => true
  | _ => false

def protocol (vs : Versions StateWire Version) :
    Protocol (CondObject StateWire) Op (Phase Version) where
  start := Op.start
  access := access vs
  fail := fun phase => .returned (.failed (.store phase.doing))
  returned := Phase.isReturned

abbrev Cluster (Version : Type) := Calls (CondObject StateWire) Op (Phase Version)

def initial : Cluster Version := Protocol.initial CondObject.empty

end Shale.Arbiter
