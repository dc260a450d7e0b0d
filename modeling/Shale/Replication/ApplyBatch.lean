import Shale.Foundation.LastWriter
import Shale.Replication.Codec
import Shale.Storage.MemoryTx

/-!
# Apply-if-newer on batches

`applyEnvelopesTx` is the one transaction body of all replica-receiving applies: under `applyMu`
it reads each key of a batch, puts the incoming envelope where its stamp beats the stored one,
and commits the whole batch. Any call to the backend may fail, and then nothing is committed.

What a batch leaves of a key is the last writer among what was stored and the entries of the
batch for it. So a position converges: what it stores in the end is decided by the collection of
the batches it has applied, not by their order or by how often each was applied.
-/

namespace Shale.ApplyBatch

open LastWriter (newer merged IsLatest Unambiguous)

structure Codec (Value Stamp : Type) [LinearOrder Stamp] where
  decodeStamp : Value → Except String Stamp
  storedStamp : Value → Stamp
  zero : Stamp
  timestamp : Stamp → Nat
  greater : Stamp → Stamp → Bool
  storedStamp_eq : ∀ {value stamp}, decodeStamp value = .ok stamp → storedStamp value = stamp
  greater_iff : ∀ {a b}, greater a b = true ↔ b < a

/-- The envelopes of `envelope.go`. -/
def wire : Codec Bytes Wire.Stamp where
  decodeStamp := fun b => (Wire.decodeStamp b).map Prod.fst
  storedStamp := fun b =>
    match Wire.decode b with
    | .ok env => env.stamp
    | .error _ => .zero
  zero := .zero
  timestamp := Wire.Stamp.timestampNanos
  greater := Wire.Stamp.greater
  storedStamp_eq := by
    intro b stamp found
    cases decoded : Wire.decodeStamp b with
    | error err =>
      rw [decoded] at found
      cases found
    | ok result =>
      rw [decoded] at found
      rw [Wire.decode_eq decoded]
      exact Except.ok.inj found
  greater_iff := Wire.Stamp.greater_iff

structure EnvelopeWrite (Value : Type) where
  key : Bytes
  envelope : Value
deriving DecidableEq

/-- Whether the calls to the backend succeed; reads and puts are counted by the entry of the
batch that they are for. -/
structure Answers where
  begins : Bool
  gets : Nat → Bool
  puts : Nat → Bool
  commits : Bool

/-- A backend that never fails. -/
def Answers.ok : Answers := ⟨true, fun _ => true, fun _ => true, true⟩

inductive ApplyError where
  | begin
  | corrupt (message : String)
  | transaction
deriving DecidableEq

section Apply

variable {Value Stamp : Type} [LinearOrder Stamp] (codec : Codec Value Stamp)

def txApplyIfNewer (incoming : Stamp) : Option Value → Bool × Stamp
  | none => (true, codec.zero)
  | some stored => (codec.greater incoming (codec.storedStamp stored), codec.storedStamp stored)

def applyLoop (answers : Answers) (db : Store Value) (i clock : Nat) (tx : MemoryTx Value)
    (applied : Bool) :
    List (EnvelopeWrite Value) → Nat × Except ApplyError (MemoryTx Value × Bool)
  | [] => (clock, .ok (tx, applied))
  | w :: rest =>
    match codec.decodeStamp w.envelope with
    | .error message => (clock, .error (.corrupt message))
    | .ok stamp =>
      let seen := max clock (codec.timestamp stamp)
      if answers.gets i then
        let (apply, stored) := txApplyIfNewer codec stamp (tx.get db w.key)
        let seen := max seen (codec.timestamp stored)
        if apply then
          if answers.puts i then
            applyLoop answers db (i + 1) seen (tx.put w.key w.envelope) true rest
          else (seen, .error .transaction)
        else applyLoop answers db (i + 1) seen tx applied rest
      else (seen, .error .transaction)

def applyEnvelopesTx (answers : Answers) (db : Store Value) (clock : Nat)
    (writes : List (EnvelopeWrite Value)) : Store Value × Nat × Except ApplyError Bool :=
  if answers.begins then
    match applyLoop codec answers db 0 clock .begin false writes with
    | (clock, .error err) => (db, clock, .error err)
    | (clock, .ok (tx, applied)) =>
      if answers.commits then (tx.commit db, clock, .ok applied)
      else (db, clock, .error .transaction)
  else (db, clock, .error .begin)

def valuesFor (key : Bytes) (writes : List (EnvelopeWrite Value)) : List Value :=
  (writes.filter fun w => w.key = key).map EnvelopeWrite.envelope

variable {codec} {answers : Answers} {db : Store Value} {clock : Nat}
  {writes : List (EnvelopeWrite Value)} {tx tx' : MemoryTx Value} {i clock' : Nat}
  {applied applied' : Bool} {key : Bytes} {value : Value}

@[simp] theorem valuesFor_nil : valuesFor key ([] : List (EnvelopeWrite Value)) = [] := rfl

theorem valuesFor_cons (w : EnvelopeWrite Value) :
    valuesFor key (w :: writes) =
      if w.key = key then w.envelope :: valuesFor key writes else valuesFor key writes := by
  unfold valuesFor
  split
  case isTrue same => simp [same]
  case isFalse other => simp [other]

variable {stamp : Stamp}

theorem newer_eq {stored : Option Value} (decoded : codec.decodeStamp value = .ok stamp) :
    newer codec.storedStamp stored value =
      if (txApplyIfNewer codec stamp stored).1 then some value else stored := by
  cases stored with
  | none => rfl
  | some old =>
    simp only [newer, txApplyIfNewer, codec.storedStamp_eq decoded, codec.greater_iff]

theorem get_applied (tx : MemoryTx Value) (db : Store Value) {w : EnvelopeWrite Value}
    (decoded : codec.decodeStamp w.envelope = .ok stamp) (key : Bytes) :
    (if (txApplyIfNewer codec stamp (tx.get db w.key)).1 then tx.put w.key w.envelope
      else tx).get db key =
      if w.key = key then newer codec.storedStamp (tx.get db key) w.envelope
      else tx.get db key := by
  by_cases same : w.key = key
  · subst same
    rw [if_pos rfl, newer_eq decoded]
    split
    · exact MemoryTx.get_put_self
    · rfl
  · rw [if_neg same]
    split
    · exact MemoryTx.get_put_of_ne (Ne.symm same)
    · rfl

theorem get_of_applyLoop
    (looped : applyLoop codec answers db i clock tx applied writes = (clock', .ok (tx', applied')))
    (key : Bytes) :
    tx'.get db key = merged codec.storedStamp (tx.get db key) (valuesFor key writes) := by
  induction writes generalizing i clock tx applied with
  | nil =>
    obtain ⟨-, same⟩ := Prod.mk.inj looped
    cases Except.ok.inj same
    rfl
  | cons w rest ih =>
    simp only [applyLoop] at looped
    split at looped
    · cases looped
    case h_2 stamp decoded =>
      split at looped
      case isFalse => cases looped
      case isTrue =>
        have step := get_applied tx db decoded key
        have onward : ∀ {tx₁ : MemoryTx Value} {seen : Nat} {applied₁ : Bool},
            tx₁ = (if (txApplyIfNewer codec stamp (tx.get db w.key)).1 then
              tx.put w.key w.envelope else tx) →
            applyLoop codec answers db (i + 1) seen tx₁ applied₁ rest =
              (clock', .ok (tx', applied')) →
            tx'.get db key =
              merged codec.storedStamp (tx.get db key) (valuesFor key (w :: rest)) := by
          intro tx₁ seen applied₁ same looped
          rw [ih looped, same, step, valuesFor_cons]
          split <;> rfl
        split at looped
        case isTrue apply =>
          split at looped
          case isTrue => exact onward (by rw [if_pos apply]) looped
          case isFalse => cases looped
        case isFalse refused => exact onward (by rw [if_neg refused]) looped

theorem get_of_applyEnvelopesTx
    (done : (applyEnvelopesTx codec answers db clock writes).2.2 = .ok applied) (key : Bytes) :
    (applyEnvelopesTx codec answers db clock writes).1.get key =
      merged codec.storedStamp (db.get key) (valuesFor key writes) := by
  unfold applyEnvelopesTx at done ⊢
  split
  case isTrue begins =>
    rw [if_pos begins] at done
    split
    case h_1 looped =>
      rw [looped] at done
      cases done
    case h_2 looped =>
      rw [looped] at done
      split
      case isTrue => rw [MemoryTx.get_commit, get_of_applyLoop looped, MemoryTx.get_begin]
      case isFalse refused =>
        simp only [if_neg refused] at done
        cases done
  case isFalse refused =>
    rw [if_neg refused] at done
    cases done

theorem applyLoop_ok (decodes : ∀ w ∈ writes, ∃ stamp, codec.decodeStamp w.envelope = .ok stamp)
    (db : Store Value) (i clock : Nat) (tx : MemoryTx Value) (applied : Bool) :
    ∃ result, (applyLoop codec .ok db i clock tx applied writes).2 = .ok result := by
  induction writes generalizing i clock tx applied with
  | nil => exact ⟨_, rfl⟩
  | cons w rest ih =>
    obtain ⟨stamp, decoded⟩ := decodes w (List.mem_cons_self ..)
    have onward := ih fun later member => decodes later (List.mem_cons_of_mem _ member)
    simp only [applyLoop, decoded, Answers.ok, ↓reduceIte]
    split <;> exact onward ..

theorem applyEnvelopesTx_ok
    (decodes : ∀ w ∈ writes, ∃ stamp, codec.decodeStamp w.envelope = .ok stamp)
    (db : Store Value) (clock : Nat) :
    ∃ applied, (applyEnvelopesTx codec .ok db clock writes).2.2 = .ok applied := by
  obtain ⟨⟨tx, applied⟩, looped⟩ := applyLoop_ok decodes db 0 clock .begin false
  refine ⟨applied, ?_⟩
  have begins : Answers.ok.begins = true := rfl
  rw [applyEnvelopesTx, if_pos begins]
  split
  case h_1 ended =>
    rw [ended] at looped
    cases looped
  case h_2 ended =>
    rw [ended] at looped
    cases Except.ok.inj looped
    rfl

theorem db_of_error {err : ApplyError}
    (failed : (applyEnvelopesTx codec answers db clock writes).2.2 = .error err) :
    (applyEnvelopesTx codec answers db clock writes).1 = db := by
  unfold applyEnvelopesTx at failed ⊢
  split
  · split
    · rfl
    · split
      case isTrue commits => simp_all
      case isFalse => rfl
  · rfl

theorem applied_of_single (decoded : codec.decodeStamp value = .ok stamp)
    (done : (applyEnvelopesTx codec answers db clock [⟨key, value⟩]).2.2 = .ok applied) :
    applied = (txApplyIfNewer codec stamp (db.get key)).1 := by
  simp only [applyEnvelopesTx, applyLoop, decoded, MemoryTx.get_begin] at done
  generalize txApplyIfNewer codec stamp (db.get key) = decision at done ⊢
  split_ifs at done <;> simp_all

/-- A position: its database, the mark of its node's stamp clock, and the batches that it has
applied. -/
structure Position (Value : Type) where
  db : Store Value
  clock : Nat
  delivered : List (List (EnvelopeWrite Value))

structure Attempt (Value : Type) where
  answers : Answers
  batch : List (EnvelopeWrite Value)

def Position.deliver (codec : Codec Value Stamp) (p : Position Value) (attempt : Attempt Value) :
    Position Value :=
  match applyEnvelopesTx codec attempt.answers p.db p.clock attempt.batch with
  | (db, clock, .ok _) => ⟨db, clock, p.delivered ++ [attempt.batch]⟩
  | (db, clock, .error _) => { p with db, clock }

def Position.deliverAll (codec : Codec Value Stamp) (p : Position Value)
    (attempts : List (Attempt Value)) : Position Value :=
  attempts.foldl (Position.deliver codec) p

def Position.start (db : Store Value) (clock : Nat) : Position Value := ⟨db, clock, []⟩

variable {first : Store Value} {p : Position Value}

theorem get_deliver (attempt : Attempt Value) (key : Bytes)
    (before : p.db.get key =
      merged codec.storedStamp (first.get key) (valuesFor key p.delivered.flatten)) :
    (p.deliver codec attempt).db.get key = merged codec.storedStamp (first.get key)
      (valuesFor key (p.deliver codec attempt).delivered.flatten) := by
  unfold Position.deliver
  split
  case h_1 db clock applied ended =>
    have done : (applyEnvelopesTx codec attempt.answers p.db p.clock attempt.batch).2.2 =
        .ok applied := by rw [ended]
    have stored := get_of_applyEnvelopesTx done key
    rw [ended] at stored
    rw [stored, before]
    simp [valuesFor, merged]
  case h_2 db clock err ended =>
    have failed : (applyEnvelopesTx codec attempt.answers p.db p.clock attempt.batch).2.2 =
        .error err := by rw [ended]
    have same : db = p.db := by simpa [ended] using db_of_error failed
    simpa [same] using before

theorem get_deliverAll (attempts : List (Attempt Value)) (key : Bytes)
    (before : p.db.get key =
      merged codec.storedStamp (first.get key) (valuesFor key p.delivered.flatten)) :
    (p.deliverAll codec attempts).db.get key = merged codec.storedStamp (first.get key)
      (valuesFor key (p.deliverAll codec attempts).delivered.flatten) := by
  induction attempts generalizing p with
  | nil => exact before
  | cons attempt rest ih => exact ih (get_deliver attempt key before)

/-- A position has applied each write of a collection at least once, nothing else, and no value
that it held before is as new as all of them. -/
structure Received (codec : Codec Value Stamp) (collection : List (EnvelopeWrite Value))
    (first : Store Value) (p : Position Value) : Prop where
  reached : ∃ clock attempts, p = (Position.start first clock).deliverAll codec attempts
  mem_iff : ∀ w, w ∈ p.delivered.flatten ↔ w ∈ collection
  older : ∀ key old, first.get key = some old → (∃ e, ⟨key, e⟩ ∈ collection) →
    ∃ e, ⟨key, e⟩ ∈ collection ∧ codec.storedStamp old < codec.storedStamp e

namespace Received

variable {collection : List (EnvelopeWrite Value)} {first : Store Value} {p : Position Value}

section

variable (received : Received codec collection first p)
include received

theorem get (key : Bytes) :
    p.db.get key =
      merged codec.storedStamp (first.get key) (valuesFor key p.delivered.flatten) := by
  obtain ⟨clock, attempts, rfl⟩ := received.reached
  exact get_deliverAll attempts key rfl

theorem mem_valuesFor {key : Bytes} {e : Value} :
    e ∈ valuesFor key p.delivered.flatten ↔ ⟨key, e⟩ ∈ collection := by
  rw [← received.mem_iff, valuesFor, List.mem_map]
  constructor
  · rintro ⟨⟨own, e'⟩, kept, rfl⟩
    obtain ⟨mem, same⟩ := List.mem_filter.mp kept
    obtain rfl : own = key := by simpa using same
    exact mem
  · intro mem
    exact ⟨⟨key, e⟩, List.mem_filter.mpr ⟨mem, by simp⟩, rfl⟩

theorem isLatest {key : Bytes} (written : ∃ e, ⟨key, e⟩ ∈ collection) :
    ∃ e, IsLatest codec.storedStamp (fun e => ⟨key, e⟩ ∈ collection) e ∧ p.db.get key = some e := by
  have present : (merged codec.storedStamp (first.get key)
      (valuesFor key p.delivered.flatten)).isSome := by
    obtain ⟨e, member⟩ := written
    exact LastWriter.merged_isSome
      (.inr (List.ne_nil_of_mem (received.mem_valuesFor.mpr member)))
  obtain ⟨e, kept⟩ := Option.isSome_iff_exists.mp present
  have latest := LastWriter.isLatest_of_merged kept
  have greatest : ∀ e', ⟨key, e'⟩ ∈ collection → codec.storedStamp e' ≤ codec.storedStamp e :=
    fun e' member => latest.le e' (.inr (received.mem_valuesFor.mpr member))
  refine ⟨e, ⟨?_, greatest⟩, (received.get key).trans kept⟩
  rcases latest.holds with held | member
  · -- a value from before is beaten by one of the collection
    obtain ⟨e', member, beaten⟩ := received.older key e held written
    exact absurd (greatest e' member) (not_le.mpr beaten)
  · exact received.mem_valuesFor.mp member

theorem get_of_unwritten {key : Bytes} (unwritten : ∀ e, ⟨key, e⟩ ∉ collection) :
    p.db.get key = first.get key := by
  have nothing := List.eq_nil_iff_forall_not_mem.mpr
      fun e member => unwritten e (received.mem_valuesFor.mp member)
  rw [received.get, nothing]
  rfl

end

theorem of_empty {clock : Nat} {attempts : List (Attempt Value)}
    (subset : ((Position.start ∅ clock).deliverAll codec attempts).delivered.flatten ⊆ collection)
    (each : collection ⊆ ((Position.start ∅ clock).deliverAll codec attempts).delivered.flatten) :
    Received codec collection ∅ ((Position.start ∅ clock).deliverAll codec attempts) where
  reached := ⟨clock, attempts, rfl⟩
  mem_iff := fun _ => ⟨fun member => subset member, fun member => each member⟩
  older := by simp

end Received

end Apply

def StampedApart (collection : List (EnvelopeWrite Bytes)) : Prop :=
  ∀ key, Unambiguous wire.storedStamp fun e => ⟨key, e⟩ ∈ collection

instance (collection : List (EnvelopeWrite Bytes)) : Decidable (StampedApart collection) :=
  decidable_of_iff (∀ v ∈ collection, ∀ w ∈ collection, v.key = w.key →
      wire.storedStamp v.envelope = wire.storedStamp w.envelope → v.envelope = w.envelope)
    ⟨fun apart key e e' left right => apart ⟨key, e⟩ left ⟨key, e'⟩ right rfl,
      fun apart v left w right same => apart v.key v.envelope w.envelope left (same ▸ right)⟩

/-- Positions converge: whatever the order and the number of the deliveries of a collection and
the failed attempts between them, each key that it writes ends at the envelope with the greatest
stamp, the other keys are untouched, and so two positions that received it store the same; an
apply that fails changes nothing. -/
theorem replicas_converge {collection : List (EnvelopeWrite Bytes)}
    (apart : StampedApart collection) :
    (∀ first p, Received wire collection first p → ∀ key, ((∃ e, ⟨key, e⟩ ∈ collection) →
        ∃ e, IsLatest wire.storedStamp (fun e => ⟨key, e⟩ ∈ collection) e ∧
          p.db.get key = some e) ∧
      ((∀ e, ⟨key, e⟩ ∉ collection) → p.db.get key = first.get key)) ∧
    (∀ (answers : Answers) (db : Store Bytes) (clock : Nat) (writes : List (EnvelopeWrite Bytes))
      (err : ApplyError), (applyEnvelopesTx wire answers db clock writes).2.2 = .error err →
      (applyEnvelopesTx wire answers db clock writes).1 = db) ∧
    ∀ first first' p p', Received wire collection first p → Received wire collection first' p' →
      (∀ key, (∀ e, ⟨key, e⟩ ∉ collection) → first.get key = first'.get key) →
      ∀ key, p.db.get key = p'.db.get key := by
  refine ⟨fun first p received key => ⟨received.isLatest, received.get_of_unwritten⟩,
    fun answers db clock writes err => db_of_error, ?_⟩
  intro first first' p p' received received' agree key
  by_cases written : ∃ e, ⟨key, e⟩ ∈ collection
  · obtain ⟨e, latest, stored⟩ := received.isLatest written
    obtain ⟨e', latest', stored'⟩ := received'.isLatest written
    rw [stored, stored', latest.unique (apart key) latest']
  · have unwritten : ∀ e, ⟨key, e⟩ ∉ collection := not_exists.mp written
    rw [received.get_of_unwritten unwritten, received'.get_of_unwritten unwritten,
      agree key unwritten]

def olderWrite : EnvelopeWrite Bytes := ⟨[1], Wire.encode ⟨⟨5, [97]⟩, [10]⟩⟩

def newerWrite : EnvelopeWrite Bytes := ⟨[1], Wire.encode ⟨⟨5, [98]⟩, [11]⟩⟩

/-- A tombstone of another key. -/
def otherWrite : EnvelopeWrite Bytes := ⟨[2], Wire.encode ⟨⟨4, [97]⟩, []⟩⟩

def inOrder : Position Bytes :=
  (Position.start ∅ 0).deliverAll wire
    [⟨.ok, [olderWrite]⟩, ⟨.ok, [newerWrite, otherWrite]⟩]

def outOfOrder : Position Bytes :=
  (Position.start ∅ 9).deliverAll wire
    [⟨.ok, [otherWrite, newerWrite]⟩, ⟨{ Answers.ok with commits := false }, [olderWrite]⟩,
      ⟨.ok, [olderWrite]⟩, ⟨.ok, [newerWrite]⟩]

theorem out_of_order_converges :
    (∀ key, inOrder.db.get key = outOfOrder.db.get key) ∧
      outOfOrder.db.get [1] = some newerWrite.envelope := by
  have ordered : Received wire [olderWrite, newerWrite, otherWrite] ∅ inOrder :=
    .of_empty (by decide) (by decide)
  have disordered : Received wire [olderWrite, newerWrite, otherWrite] ∅ outOfOrder :=
    .of_empty (by decide) (by decide)
  have apart : StampedApart [olderWrite, newerWrite, otherWrite] := by decide
  exact ⟨(replicas_converge apart).2.2 ∅ ∅ _ _ ordered disordered fun _ _ => rfl, by decide⟩

end Shale.ApplyBatch
