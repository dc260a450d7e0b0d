import Shale.Reshard.Doubling
import Shale.Replication.ApplyBatch

/-!
# The online copy of a split

`multibackend_reshard_copy.go`: the node that holds a slot of a unit copies it into the two
children at the same slot, one key at a time and only over older envelopes, while writes go on in
the parent and in the children. A pass that applies nothing is clean, and the copy is repeated
until a pass is clean or the bound on the passes is reached.

The entries that a pass is given are what its iterator yields. Between any two of its steps the
other goroutines of the node may do anything; what a theorem needs of them is said there.
-/

namespace Shale.CopyPass

open Function (update update_eq_self update_of_ne update_self)

open ApplyBatch (Codec Answers ApplyError applyEnvelopesTx txApplyIfNewer valuesFor wire)
open LastWriter (newer merged)

structure Node (Value : Type) where
  db : ReplicaUnit → Store Value
  mounted : ReplicaUnit → Bool
  clock : Nat

/-- Why a pass ends early: a position is not mounted, the units of the split are not legal, the
scan fails, or an apply does. -/
inductive CopyError where
  | acquiring
  | units (message : String)
  | scan
  | next
  | apply (err : ApplyError)
deriving DecidableEq

/-- What a pass meets: whether `ScanPrefix` and each `Next` succeed, what the iterator yields,
how the backend answers the apply of each entry, whether a failed one evicts the child's mount,
and what the others do before each `Next`. -/
structure Conditions (Value : Type) where
  scans : Bool
  entries : List (Bytes × Value)
  next : Nat → Bool
  answers : Nat → Answers
  evicts : Nat → Bool
  meanwhile : Nat → Node Value → Node Value

/-- No call fails and nobody else does anything. -/
def Conditions.calm {Value : Type} (entries : List (Bytes × Value)) : Conditions Value where
  scans := true
  entries := entries
  next := fun _ => true
  answers := fun _ => .ok
  evicts := fun _ => false
  meanwhile := fun _ node => node

section Copy

variable {Value Stamp : Type} [LinearOrder Stamp] (codec : Codec Value Stamp)

def applyReport (answers : Answers) (db : Store Value) (clock : Nat) (key : Bytes)
    (envBytes : Value) : Store Value × Nat × Except ApplyError Bool :=
  match codec.decodeStamp envBytes with
  | .error message => (db, clock, .error (.corrupt message))
  | .ok _ => applyEnvelopesTx codec answers db clock [⟨key, envBytes⟩]

def copyEntry (cond : Conditions Value) (i : Nat) (dst : ReplicaUnit) (entry : Bytes × Value)
    (node : Node Value) : Except CopyError Bool × Node Value :=
  match applyReport codec (cond.answers i) (node.db dst) node.clock entry.1 entry.2 with
  | (db, clock, .ok did) =>
    (.ok did, { node with db := update node.db dst db, clock })
  | (db, clock, .error err) =>
    (.error (.apply err),
      { db := update node.db dst db
        mounted :=
          match err with
          | .corrupt _ => node.mounted
          | .begin | .transaction =>
            if cond.evicts i then update node.mounted dst false else node.mounted
        clock })

def copyLoop (cond : Conditions Value) (target : Bytes → ReplicaUnit) (i applied : Nat)
    (node : Node Value) : List (Bytes × Value) → (Nat × Option CopyError) × Node Value
  | [] =>
    let node := cond.meanwhile i node
    if cond.next i then ((applied, none), node) else ((applied, some .next), node)
  | entry :: rest =>
    let node := cond.meanwhile i node
    if cond.next i then
      match copyEntry codec cond i (target entry.1) entry node with
      | (.error err, node) => ((applied, some err), node)
      | (.ok did, node) =>
        copyLoop cond target (i + 1) (if did then applied + 1 else applied) node rest
    else ((applied, some .next), node)

variable (hash : Bytes → ShardHash)

def childSlot (gs : GenState) (ru : ReplicaUnit) (id : Nat) : ReplicaUnit :=
  { unit := { gen := gs.gen + 1, id }, replica := ru.replica }

def copyTarget (gs : GenState) (ru : ReplicaUnit) (low high : Nat) (key : Bytes) : ReplicaUnit :=
  if gs.nextUnitForHash (hash key) = low then childSlot gs ru low else childSlot gs ru high

def copyParentIntoChildren (gs : GenState) (ru : ReplicaUnit) (cond : Conditions Value)
    (node : Node Value) : (Nat × Option CopyError) × Node Value :=
  if node.mounted ru then
    match childUnits ru.unit.id gs.count with
    | .error message => ((0, some (.units message)), node)
    | .ok (low, high) =>
      if node.mounted (childSlot gs ru low) ∧ node.mounted (childSlot gs ru high) then
        if cond.scans then
          copyLoop codec cond (copyTarget hash gs ru low high) 0 0 node cond.entries
        else ((0, some .scan), node)
      else ((0, some .acquiring), node)
  else ((0, some .acquiring), node)

structure CaughtUp (Value : Type) where
  clean : Bool
  err : Option CopyError
  passes : List (Nat × Option CopyError)
  node : Node Value

def catchUpLoop (gs : GenState) (ru : ReplicaUnit) (conds : Nat → Node Value → Conditions Value)
    (passes : List (Nat × Option CopyError)) (node : Node Value) : Nat → CaughtUp Value
  | 0 => ⟨false, none, passes, node⟩
  | left + 1 =>
    let (result, after) := copyParentIntoChildren codec hash gs ru
      (conds passes.length node) node
    match result with
    | (_, some err) => ⟨false, some err, passes ++ [result], after⟩
    | (0, none) => ⟨true, none, passes ++ [result], after⟩
    | (_, none) => catchUpLoop gs ru conds (passes ++ [result]) after left

def copyParentUntilCaughtUp (gs : GenState) (ru : ReplicaUnit)
    (conds : Nat → Node Value → Conditions Value) (node : Node Value) : CaughtUp Value :=
  catchUpLoop codec hash gs ru conds [] node copyMaxPasses

/-- Passes made one after the other, the first of them the `i`th: what each returned, and the node
they leave. -/
inductive Passes (gs : GenState) (ru : ReplicaUnit) (conds : Nat → Node Value → Conditions Value) :
    Nat → Node Value → List (Nat × Option CopyError) → Node Value → Prop
  | done (i : Nat) (node : Node Value) : Passes gs ru conds i node [] node
  | pass {i : Nat} {node mid after : Node Value} {result : Nat × Option CopyError}
      {rest : List (Nat × Option CopyError)}
      (made : copyParentIntoChildren codec hash gs ru (conds i node) node = (result, mid))
      (later : Passes gs ru conds (i + 1) mid rest after) :
      Passes gs ru conds i node (result :: rest) after

end Copy

section Grows

variable {Value Stamp : Type} [LinearOrder Stamp] {codec : Codec Value Stamp}
  {before mid after store : Store Value} {key : Bytes} {value : Value}

def Grows (codec : Codec Value Stamp) (before after : Store Value) : Prop :=
  ∀ key old, before.get key = some old →
    ∃ new, after.get key = some new ∧ codec.storedStamp old ≤ codec.storedStamp new

def Holds (codec : Codec Value Stamp) (store : Store Value) (key : Bytes) (value : Value) : Prop :=
  ∃ held, store.get key = some held ∧ codec.storedStamp value ≤ codec.storedStamp held

theorem Grows.refl (store : Store Value) : Grows codec store store :=
  fun _ old held => ⟨old, held, le_rfl⟩

theorem Grows.trans (first : Grows codec before mid) (second : Grows codec mid after) :
    Grows codec before after := by
  intro key old held
  obtain ⟨between, held, le⟩ := first key old held
  obtain ⟨new, held, le'⟩ := second key between held
  exact ⟨new, held, le.trans le'⟩

theorem Holds.grows (holds : Holds codec before key value) (grown : Grows codec before after) :
    Holds codec after key value := by
  obtain ⟨held, found, le⟩ := holds
  obtain ⟨new, found, le'⟩ := grown key held found
  exact ⟨new, found, le.trans le'⟩

theorem applyReport_cases (codec : Codec Value Stamp) (answers : Answers) (db : Store Value)
    (clock : Nat) (key : Bytes) (value : Value) :
    (∃ err clock', applyReport codec answers db clock key value = (db, clock', .error err)) ∨
      ∃ stamp db' clock', codec.decodeStamp value = .ok stamp ∧
        applyReport codec answers db clock key value =
          (db', clock', .ok (txApplyIfNewer codec stamp (db.get key)).1) ∧
        ∀ other, db'.get other =
          if other = key then newer codec.storedStamp (db.get key) value else db.get other := by
  unfold applyReport
  split
  case h_1 => exact .inl ⟨_, _, rfl⟩
  case h_2 stamp decoded =>
    rcases ended : applyEnvelopesTx codec answers db clock [⟨key, value⟩] with ⟨db', clock', result⟩
    cases result with
    | error err =>
      have failed : (applyEnvelopesTx codec answers db clock [⟨key, value⟩]).2.2 =
          .error err := by rw [ended]
      have same := ApplyBatch.db_of_error failed
      rw [ended] at same
      obtain rfl : db' = db := same
      exact .inl ⟨err, clock', rfl⟩
    | ok did =>
      have done : (applyEnvelopesTx codec answers db clock [⟨key, value⟩]).2.2 = .ok did := by
        rw [ended]
      have reads := ApplyBatch.get_of_applyEnvelopesTx done
      rw [ended] at reads
      have flag := ApplyBatch.applied_of_single decoded done
      refine .inr ⟨stamp, db', clock', decoded, by rw [flag], ?_⟩
      intro other
      rw [reads other, ApplyBatch.valuesFor_cons]
      by_cases same : key = other
      · simp [same, merged]
      · simp [same, Ne.symm same, merged]

theorem grows_of_newer (reads : ∀ other, after.get other =
      if other = key then newer codec.storedStamp (before.get key) value else before.get other) :
    Grows codec before after := by
  intro other old held
  rw [reads other]
  split
  case isTrue same =>
    subst same
    obtain ⟨new, stored, latest⟩ :=
      LastWriter.isLatest_newer codec.storedStamp (before.get other) value
    exact ⟨new, stored, latest.le old (.inl held)⟩
  case isFalse => exact ⟨old, held, le_rfl⟩

theorem holds_of_newer (reads : after.get key = newer codec.storedStamp (before.get key) value) :
    Holds codec after key value := by
  obtain ⟨new, stored, latest⟩ :=
    LastWriter.isLatest_newer codec.storedStamp (before.get key) value
  exact ⟨new, reads.trans stored, latest.le value (.inr rfl)⟩

end Grows

section Entry

variable {Value Stamp : Type} [LinearOrder Stamp] {codec : Codec Value Stamp}
  {cond : Conditions Value} {i : Nat} {dst ru : ReplicaUnit} {entry : Bytes × Value}
  {node after : Node Value} {did : Bool} {err : CopyError}

theorem copyEntry_of_error (ended : copyEntry codec cond i dst entry node = (.error err, after)) :
    after.db = node.db := by
  unfold copyEntry at ended
  rcases applyReport_cases codec (cond.answers i) (node.db dst) node.clock entry.1 entry.2 with
    ⟨failure, clock, failed⟩ | ⟨stamp, db, clock, -, done, -⟩
  · rw [failed] at ended
    cases ended
    exact update_eq_self dst node.db
  · rw [done] at ended
    cases (Prod.mk.inj ended).1

section

variable (ended : copyEntry codec cond i dst entry node = (.ok did, after))
include ended

theorem copyEntry_of_ok :
    ∃ stamp db, codec.decodeStamp entry.2 = .ok stamp ∧
      did = (txApplyIfNewer codec stamp ((node.db dst).get entry.1)).1 ∧
      after.db = update node.db dst db ∧
      ∀ other, db.get other =
        if other = entry.1 then newer codec.storedStamp ((node.db dst).get entry.1) entry.2
        else (node.db dst).get other := by
  unfold copyEntry at ended
  rcases applyReport_cases codec (cond.answers i) (node.db dst) node.clock entry.1 entry.2 with
    ⟨failure, clock, failed⟩ | ⟨stamp, db, clock, decoded, done, reads⟩
  · rw [failed] at ended
    cases (Prod.mk.inj ended).1
  · rw [done] at ended
    obtain ⟨flag, rfl⟩ := Prod.mk.inj ended
    exact ⟨stamp, db, decoded, (Except.ok.inj flag).symm, rfl, reads⟩

theorem grows_copyEntry (ru : ReplicaUnit) : Grows codec (node.db ru) (after.db ru) := by
  obtain ⟨stamp, db, -, -, stores, reads⟩ := copyEntry_of_ok ended
  rw [stores]
  by_cases same : ru = dst
  · subst same
    rw [update_self]
    exact grows_of_newer reads
  · rw [update_of_ne same]
    exact .refl _

theorem holds_copyEntry : Holds codec (after.db dst) entry.1 entry.2 := by
  obtain ⟨stamp, db, -, -, stores, reads⟩ := copyEntry_of_ok ended
  have own := reads entry.1
  rw [if_pos rfl] at own
  rw [stores, update_self]
  exact holds_of_newer own

theorem get_copyEntry_of_ne {key : Bytes} (apart : ru ≠ dst ∨ key ≠ entry.1) :
    (after.db ru).get key = (node.db ru).get key := by
  obtain ⟨stamp, db, -, -, stores, reads⟩ := copyEntry_of_ok ended
  rw [stores]
  by_cases same : ru = dst
  · subst same
    rw [update_self, reads, if_neg (apart.resolve_left (not_not.mpr rfl))]
  · rw [update_of_ne same]

theorem copyEntry_of_holds (holds : Holds codec (node.db dst) entry.1 entry.2) : did = false := by
  obtain ⟨stamp, db, decoded, flag, -, -⟩ := copyEntry_of_ok ended
  obtain ⟨held, found, le⟩ := holds
  rw [codec.storedStamp_eq decoded] at le
  have beaten : ¬ codec.greater stamp (codec.storedStamp held) = true := by
    rw [codec.greater_iff]
    exact not_lt.mpr le
  rw [flag, found]
  simpa [txApplyIfNewer] using beaten

end

theorem copyEntry_calm (entries : List (Bytes × Value)) (i : Nat) (dst : ReplicaUnit)
    (node : Node Value) {stamp : Stamp} (decoded : codec.decodeStamp entry.2 = .ok stamp) :
    ∃ did after, copyEntry codec (.calm entries) i dst entry node = (.ok did, after) := by
  have decodes : ∀ w ∈ ([⟨entry.1, entry.2⟩] : List (ApplyBatch.EnvelopeWrite Value)),
      ∃ stamp, codec.decodeStamp w.envelope = .ok stamp := by
    simpa using ⟨stamp, decoded⟩
  obtain ⟨did, done⟩ := ApplyBatch.applyEnvelopesTx_ok decodes (node.db dst) node.clock
  unfold copyEntry applyReport Conditions.calm
  rw [decoded]
  rcases ended : applyEnvelopesTx codec .ok (node.db dst) node.clock [⟨entry.1, entry.2⟩] with
    ⟨db, clock, result⟩
  rw [ended] at done
  obtain rfl := done
  exact ⟨did, _, rfl⟩

end Entry

section Pass

variable {Value Stamp : Type} [LinearOrder Stamp] {codec : Codec Value Stamp}
  {cond : Conditions Value} {target : Bytes → ReplicaUnit} {i applied n : Nat}
  {ru : ReplicaUnit} {node after : Node Value} {entries : List (Bytes × Value)}
  {result : Nat × Option CopyError}

theorem copyLoop_cons {entry : Bytes × Value} {rest : List (Bytes × Value)}
    (ended : copyLoop codec cond target i applied node (entry :: rest) = (result, after)) :
    (∃ err, result = (applied, some err)) ∧ after.db = (cond.meanwhile i node).db ∨
      ∃ did mid, copyEntry codec cond i (target entry.1) entry (cond.meanwhile i node) =
          (.ok did, mid) ∧
        copyLoop codec cond target (i + 1) (if did then applied + 1 else applied) mid rest =
          (result, after) := by
  simp only [copyLoop] at ended
  split at ended
  · split at ended
    case h_1 err mid failed =>
      cases ended
      exact .inl ⟨⟨_, rfl⟩, copyEntry_of_error failed⟩
    case h_2 did mid done => exact .inr ⟨did, mid, done, ended⟩
  · cases ended
    exact .inl ⟨⟨_, rfl⟩, rfl⟩

theorem copyLoop_nil (ended : copyLoop codec cond target i applied node [] = (result, after)) :
    after = cond.meanwhile i node := by
  simp only [copyLoop] at ended
  split at ended <;> exact (Prod.mk.inj ended).2.symm

theorem grows_copyLoop
    (steady : ∀ j other, Grows codec (other.db ru) ((cond.meanwhile j other).db ru))
    (ended : copyLoop codec cond target i applied node entries = (result, after)) :
    Grows codec (node.db ru) (after.db ru) := by
  induction entries generalizing i applied node with
  | nil =>
    rw [copyLoop_nil ended]
    exact steady i node
  | cons entry rest ih =>
    rcases copyLoop_cons ended with ⟨-, same⟩ | ⟨did, mid, done, later⟩
    · rw [same]
      exact steady i node
    · exact (steady i node).trans ((grows_copyEntry done ru).trans (ih later))

theorem get_copyLoop_of_ne {key : Bytes} (apart : target key ≠ ru)
    (steady : ∀ j other, ((cond.meanwhile j other).db ru).get key = (other.db ru).get key)
    (ended : copyLoop codec cond target i applied node entries = (result, after)) :
    (after.db ru).get key = (node.db ru).get key := by
  induction entries generalizing i applied node with
  | nil =>
    rw [copyLoop_nil ended]
    exact steady i node
  | cons entry rest ih =>
    rcases copyLoop_cons ended with ⟨-, same⟩ | ⟨did, mid, done, later⟩
    · rw [same]
      exact steady i node
    · have elsewhere : ru ≠ target entry.1 ∨ key ≠ entry.1 := by
        by_cases same : key = entry.1
        · exact .inl (same ▸ apart.symm)
        · exact .inr same
      rw [ih later, get_copyEntry_of_ne done elsewhere, steady i node]

theorem db_copyLoop_of_ne (apart : ∀ key, target key ≠ ru)
    (steady : ∀ j other, (cond.meanwhile j other).db ru = other.db ru)
    (ended : copyLoop codec cond target i applied node entries = (result, after)) :
    after.db ru = node.db ru := by
  induction entries generalizing i applied node with
  | nil =>
    rw [copyLoop_nil ended]
    exact steady i node
  | cons entry rest ih =>
    rcases copyLoop_cons ended with ⟨-, same⟩ | ⟨did, mid, done, later⟩
    · rw [same]
      exact steady i node
    · obtain ⟨stamp, db, -, -, stores, -⟩ := copyEntry_of_ok done
      rw [ih later, stores, update_of_ne (apart entry.1).symm, steady i node]

theorem holds_copyLoop (steady : ∀ key j other, Grows codec (other.db (target key))
      ((cond.meanwhile j other).db (target key)))
    (ended : copyLoop codec cond target i applied node entries = ((n, none), after)) :
    ∀ entry ∈ entries, Holds codec (after.db (target entry.1)) entry.1 entry.2 := by
  induction entries generalizing i applied node with
  | nil => simp
  | cons entry rest ih =>
    rcases copyLoop_cons ended with ⟨⟨err, failed⟩, -⟩ | ⟨did, mid, done, later⟩
    · cases failed
    · intro scanned mem
      rcases List.mem_cons.mp mem with rfl | mem
      · exact (holds_copyEntry done).grows (grows_copyLoop (steady _) later)
      · exact ih later scanned mem

theorem copyLoop_calm (scanned : List (Bytes × Value)) (target : Bytes → ReplicaUnit)
    (decodes : ∀ entry ∈ entries, ∃ stamp, codec.decodeStamp entry.2 = .ok stamp)
    (i applied : Nat) (node : Node Value) :
    ∃ n after, copyLoop codec (.calm scanned) target i applied node entries = ((n, none), after) ∧
      ((∀ entry ∈ entries, Holds codec (node.db (target entry.1)) entry.1 entry.2) →
        n = applied) := by
  induction entries generalizing i applied node with
  | nil => exact ⟨applied, node, rfl, fun _ => rfl⟩
  | cons entry rest ih =>
    obtain ⟨stamp, decoded⟩ := decodes entry List.mem_cons_self
    obtain ⟨did, mid, done⟩ := copyEntry_calm scanned i (target entry.1) node decoded
    obtain ⟨n, after, ended, clean⟩ :=
      ih (fun later member => decodes later (List.mem_cons_of_mem _ member)) (i + 1)
        (if did then applied + 1 else applied) mid
    refine ⟨n, after, ?_, ?_⟩
    · have next : (Conditions.calm scanned).next i = true := rfl
      have alone : (Conditions.calm scanned).meanwhile i node = node := rfl
      simp [copyLoop, next, alone, done, ended]
    · intro holds
      have skipped := copyEntry_of_holds done (holds entry List.mem_cons_self)
      have kept := clean fun later member =>
        (holds later (List.mem_cons_of_mem _ member)).grows (grows_copyEntry done _)
      rw [kept, skipped]
      rfl

end Pass

section Slot

variable {Value Stamp : Type} [LinearOrder Stamp] {codec : Codec Value Stamp}
  {hash : Bytes → ShardHash} {gs : GenState} {next : UnitCount} {ru : ReplicaUnit}
  {cond : Conditions Value} {node after : Node Value} {result : Nat × Option CopyError}
  {key : Bytes} {n : Nat}

theorem copyParentIntoChildren_cases
    (ended : copyParentIntoChildren codec hash gs ru cond node = (result, after)) :
    (∃ err, result = (0, some err)) ∧ after = node ∨
      ∃ high, childUnits ru.unit.id gs.count = .ok (ru.unit.id, high) ∧
        copyLoop codec cond (copyTarget hash gs ru ru.unit.id high) 0 0 node cond.entries =
          (result, after) := by
  unfold copyParentIntoChildren at ended
  split at ended
  case isFalse =>
    cases ended
    exact .inl ⟨⟨_, rfl⟩, rfl⟩
  split at ended
  case h_1 =>
    cases ended
    exact .inl ⟨⟨_, rfl⟩, rfl⟩
  case h_2 low high children =>
    split_ifs at ended
    · obtain rfl := low_of_childUnits children
      exact .inr ⟨high, children, ended⟩
    · cases ended
      exact .inl ⟨⟨_, rfl⟩, rfl⟩
    · cases ended
      exact .inl ⟨⟨_, rfl⟩, rfl⟩

theorem exists_copyTarget_eq (hash : Bytes → ShardHash) (gs : GenState) (ru : ReplicaUnit)
    (low high : Nat) (key : Bytes) :
    ∃ id, copyTarget hash gs ru low high key = childSlot gs ru id := by
  unfold copyTarget
  split
  · exact ⟨low, rfl⟩
  · exact ⟨high, rfl⟩

theorem copyTarget_eq {high : Nat} (entered : gs.nextCount = some next)
    (doubled : gs.count.double = .ok next)
    (children : childUnits ru.unit.id gs.count = .ok (ru.unit.id, high))
    (owned : unitForHash (hash key) gs.count = ru.unit.id) :
    copyTarget hash gs ru ru.unit.id high key = childSlot gs ru (unitForHash (hash key) next) := by
  have inside : ru.unit.id < gs.count.n := owned ▸ unitForHash_lt _ _
  rw [childUnits_eq doubled inside] at children
  cases Except.ok.inj children
  have split := unitForHash_double_mem_childUnits (UnitCount.n_of_double doubled) (hash key)
  rw [owned] at split
  unfold copyTarget GenState.nextUnitForHash
  rw [entered]
  dsimp only
  split_ifs with low
  · rw [low]
  · rw [split.resolve_left low]

theorem grows_copyParentIntoChildren (id : Nat)
    (steady : ∀ j other, Grows codec (other.db (childSlot gs ru id))
      ((cond.meanwhile j other).db (childSlot gs ru id)))
    (ended : copyParentIntoChildren codec hash gs ru cond node = (result, after)) :
    Grows codec (node.db (childSlot gs ru id)) (after.db (childSlot gs ru id)) := by
  rcases copyParentIntoChildren_cases ended with ⟨-, rfl⟩ | ⟨high, -, looped⟩
  · exact .refl _
  · exact grows_copyLoop steady looped

theorem holds_copyParentIntoChildren (entered : gs.nextCount = some next)
    (doubled : gs.count.double = .ok next)
    (steady : ∀ id j other, Grows codec (other.db (childSlot gs ru id))
      ((cond.meanwhile j other).db (childSlot gs ru id)))
    (ended : copyParentIntoChildren codec hash gs ru cond node = ((n, none), after))
    {value : Value} (scanned : (key, value) ∈ cond.entries)
    (owned : unitForHash (hash key) gs.count = ru.unit.id) :
    Holds codec (after.db (childSlot gs ru (unitForHash (hash key) next))) key value := by
  rcases copyParentIntoChildren_cases ended with ⟨⟨err, failed⟩, -⟩ | ⟨high, children, looped⟩
  · cases failed
  · rw [← copyTarget_eq entered doubled children owned]
    refine holds_copyLoop ?_ looped (key, value) scanned
    intro other j between
    obtain ⟨id, same⟩ := exists_copyTarget_eq hash gs ru ru.unit.id high other
    rw [same]
    exact steady id j between

structure Ready (gs : GenState) (ru : ReplicaUnit) (node : Node Value) : Prop where
  live : ru.unit.gen = gs.gen
  inside : ru.unit.id < gs.count.n
  parent : node.mounted ru = true
  low : node.mounted (childSlot gs ru ru.unit.id) = true
  high : node.mounted (childSlot gs ru (ru.unit.id + gs.count.n)) = true

/-- No call fails, nobody else does anything, and a pass scans the slot as it finds it. -/
def quiescent (ru : ReplicaUnit) (_ : Nat) (node : Node Value) : Conditions Value :=
  .calm (node.db ru).scan

theorem mounted_copyLoop_calm {scanned entries : List (Bytes × Value)}
    {target : Bytes → ReplicaUnit} {i applied : Nat}
    (ended : copyLoop codec (.calm scanned) target i applied node entries = ((n, none), after)) :
    after.mounted = node.mounted := by
  induction entries generalizing i applied node with
  | nil => rw [copyLoop_nil ended, Conditions.calm]
  | cons entry rest ih =>
    rcases copyLoop_cons ended with ⟨⟨err, failed⟩, -⟩ | ⟨did, mid, done, later⟩
    · cases failed
    · rw [ih later]
      unfold copyEntry at done
      split at done
      · cases done
        rfl
      · cases (Prod.mk.inj done).1

theorem copyParentIntoChildren_quiescent (hash : Bytes → ShardHash)
    (doubled : gs.count.double = .ok next) (ready : Ready gs ru node) (pass : Nat)
    (decodes : ∀ entry ∈ (node.db ru).scan, ∃ stamp, codec.decodeStamp entry.2 = .ok stamp) :
    ∃ n after, copyParentIntoChildren codec hash gs ru (quiescent ru pass node) node =
        ((n, none), after) ∧ after.db ru = node.db ru ∧ after.mounted = node.mounted ∧
      (∀ entry ∈ (node.db ru).scan, Holds codec (after.db (copyTarget hash gs ru ru.unit.id
        (ru.unit.id + gs.count.n) entry.1)) entry.1 entry.2) ∧
      ((∀ entry ∈ (node.db ru).scan, Holds codec (node.db (copyTarget hash gs ru ru.unit.id
        (ru.unit.id + gs.count.n) entry.1)) entry.1 entry.2) → n = 0) := by
  obtain ⟨n, after, looped, clean⟩ := copyLoop_calm (node.db ru).scan
    (copyTarget hash gs ru ru.unit.id (ru.unit.id + gs.count.n)) decodes 0 0 node
  have away : ∀ key, copyTarget hash gs ru ru.unit.id (ru.unit.id + gs.count.n) key ≠ ru := by
    intro key same
    obtain ⟨id, child⟩ := exists_copyTarget_eq hash gs ru ru.unit.id (ru.unit.id + gs.count.n) key
    have later : ru.unit.gen = gs.gen + 1 := by rw [← same, child]; rfl
    have := ready.live
    omega
  refine ⟨n, after, ?_, ?_, mounted_copyLoop_calm looped, ?_, clean⟩
  · unfold copyParentIntoChildren
    rw [if_pos ready.parent, childUnits_eq doubled ready.inside]
    dsimp only
    rw [if_pos ⟨ready.low, ready.high⟩]
    exact looped
  · exact db_copyLoop_of_ne away (fun _ _ => rfl) looped
  · exact holds_copyLoop (fun _ _ _ => .refl _) looped

theorem catchUpLoop_spec {conds : Nat → Node Value → Conditions Value}
    {passes : List (Nat × Option CopyError)} {left : Nat} {ended : CaughtUp Value}
    (ran : catchUpLoop codec hash gs ru conds passes node left = ended) :
    ended.passes.length ≤ passes.length + left ∧
      (ended.clean = true → ended.passes.getLast? = some (0, none)) ∧
      ∃ made, ended.passes = passes ++ made ∧
        Passes codec hash gs ru conds passes.length node made ended.node := by
  induction left generalizing passes node with
  | zero =>
    cases ran
    exact ⟨le_rfl, nofun, [], (List.append_nil _).symm, .done _ _⟩
  | succ left ih =>
    unfold catchUpLoop at ran
    rcases made : copyParentIntoChildren codec hash gs ru (conds passes.length node) node with
      ⟨⟨applied, err⟩, after⟩
    rw [made] at ran
    rcases err with - | err
    · cases applied with
      | zero =>
        cases ran
        exact ⟨by simp, fun _ => by simp, _, rfl, .pass made (.done _ _)⟩
      | succ applied =>
        obtain ⟨bounded, last, rest, all, later⟩ := ih ran
        rw [List.length_append, List.length_singleton] at bounded later
        exact ⟨by omega, last, _, all.trans (List.append_assoc ..), .pass made later⟩
    · cases ran
      exact ⟨by simp, nofun, _, rfl, .pass made (.done _ _)⟩

theorem copyParentUntilCaughtUp_quiescent (doubled : gs.count.double = .ok next)
    (ready : Ready gs ru node)
    (decodes : ∀ entry ∈ (node.db ru).scan, ∃ stamp, codec.decodeStamp entry.2 = .ok stamp) :
    (copyParentUntilCaughtUp codec hash gs ru (quiescent ru) node).clean = true ∧
      (copyParentUntilCaughtUp codec hash gs ru (quiescent ru) node).err = none ∧
      (copyParentUntilCaughtUp codec hash gs ru (quiescent ru) node).passes.length ≤ 2 := by
  obtain ⟨n, after, first, slot, mounts, covered, -⟩ :=
    copyParentIntoChildren_quiescent hash doubled ready 0 decodes
  have ready' : Ready gs ru after :=
    ⟨ready.live, ready.inside, mounts ▸ ready.parent, mounts ▸ ready.low, mounts ▸ ready.high⟩
  obtain ⟨m, last, second, -, -, -, clean⟩ :=
    copyParentIntoChildren_quiescent hash doubled ready' 1 (slot.symm ▸ decodes)
  obtain rfl := clean (slot.symm ▸ covered)
  unfold copyParentUntilCaughtUp copyMaxPasses
  rw [catchUpLoop, List.length_nil, first]
  cases n with
  | zero => exact ⟨rfl, rfl, by simp⟩
  | succ n =>
    dsimp only
    rw [List.nil_append, catchUpLoop, List.length_singleton, second]
    exact ⟨rfl, rfl, by simp⟩

end Slot

/-- **The online copy is monotone and its clean pass is truthful.** A pass lowers no stamp that the
others do not lower, and writes a key to the child it hashes to only. A clean pass leaves every key
of an unchanged slot in its child. A quiescent slot is caught up with after two passes, and the
copy is its passes, the last of them clean if it says so. -/
theorem online_copy_laws (hash : Bytes → ShardHash) (gs : GenState) (next : UnitCount)
    (ru : ReplicaUnit) (entered : gs.nextCount = some next) (doubled : gs.count.double = .ok next) :
    (∀ cond node result after id,
        copyParentIntoChildren wire hash gs ru cond node = (result, after) →
        (∀ j other, Grows wire (other.db (childSlot gs ru id))
          ((cond.meanwhile j other).db (childSlot gs ru id))) →
        Grows wire (node.db (childSlot gs ru id)) (after.db (childSlot gs ru id))) ∧
      (∀ cond node result after key slot,
        copyParentIntoChildren wire hash gs ru cond node = (result, after) →
        unitForHash (hash key) gs.count = ru.unit.id →
        (∀ j other, ((cond.meanwhile j other).db slot).get key = (other.db slot).get key) →
        (after.db slot).get key ≠ (node.db slot).get key →
        slot = childSlot gs ru (unitForHash (hash key) next)) ∧
      (∀ cond node after, copyParentIntoChildren wire hash gs ru cond node = ((0, none), after) →
        cond.entries = (node.db ru).scan →
        (∀ id j other, Grows wire (other.db (childSlot gs ru id))
          ((cond.meanwhile j other).db (childSlot gs ru id))) →
        ∀ key value, (node.db ru).get key = some value →
          unitForHash (hash key) gs.count = ru.unit.id →
          Holds wire (after.db (childSlot gs ru (unitForHash (hash key) next))) key value) ∧
      (∀ node, Ready gs ru node →
        (∀ key value, (node.db ru).get key = some value →
          ∃ stamp, wire.decodeStamp value = .ok stamp) →
        (copyParentUntilCaughtUp wire hash gs ru (quiescent ru) node).clean = true ∧
          (copyParentUntilCaughtUp wire hash gs ru (quiescent ru) node).err = none ∧
          (copyParentUntilCaughtUp wire hash gs ru (quiescent ru) node).passes.length ≤ 2) ∧
      ∀ conds node ended, copyParentUntilCaughtUp wire hash gs ru conds node = ended →
        Passes wire hash gs ru conds 0 node ended.passes ended.node ∧
          ended.passes.length ≤ copyMaxPasses ∧
          (ended.clean = true → ended.passes.getLast? = some (0, none)) := by
  refine ⟨?_, ?_, ?_, ?_, ?_⟩
  · intro cond node result after id ended steady
    exact grows_copyParentIntoChildren id steady ended
  · intro cond node result after key slot ended owned steady changed
    by_contra elsewhere
    rcases copyParentIntoChildren_cases ended with ⟨-, rfl⟩ | ⟨high, children, looped⟩
    · exact changed rfl
    · have apart : copyTarget hash gs ru ru.unit.id high key ≠ slot := by
        rw [copyTarget_eq entered doubled children owned]
        exact Ne.symm elsewhere
      exact changed (get_copyLoop_of_ne apart steady looped)
  · intro cond node after ended unchanged steady key value stored owned
    have scanned : (key, value) ∈ cond.entries := unchanged ▸ Store.mem_scan.mpr stored
    exact holds_copyParentIntoChildren entered doubled steady ended scanned owned
  · intro node ready decodes
    refine copyParentUntilCaughtUp_quiescent doubled ready ?_
    rintro ⟨key, value⟩ scanned
    exact decodes key value (Store.mem_scan.mp scanned)
  · intro conds node ended ran
    obtain ⟨bounded, last, made, all, passes⟩ := catchUpLoop_spec ran
    rw [List.nil_append] at all
    exact ⟨all ▸ passes, by simpa using bounded, last⟩

/-- A node that holds the first slot of the only unit, with one legacy value, and its children. -/
def splittingNode : Node Bytes where
  db := update (fun _ => ∅) { unit := { gen := 0, id := 0 }, replica := 0 }
    (Store.put ∅ [7] [1, 2])
  mounted := fun ru => decide (ru.replica = 0)
  clock := 0

theorem online_copy_laws_legacy :
    (copyParentUntilCaughtUp wire (fun _ => 5) ⟨0, .one, some .two, ∅⟩
      { unit := { gen := 0, id := 0 }, replica := 0 }
      (quiescent { unit := { gen := 0, id := 0 }, replica := 0 }) splittingNode).clean = true := by
  refine ((online_copy_laws (fun _ => 5) ⟨0, .one, some .two, ∅⟩ .two
    { unit := { gen := 0, id := 0 }, replica := 0 } rfl (by decide)).2.2.2.1 splittingNode
    ⟨rfl, by decide, rfl, rfl, rfl⟩ ?_).1
  intro key value stored
  have scanned := Store.mem_scan.mpr stored
  rw [show (splittingNode.db _).scan = [([7], [1, 2])] from rfl, List.mem_singleton] at scanned
  cases scanned
  exact ⟨.zero, rfl⟩

end Shale.CopyPass
