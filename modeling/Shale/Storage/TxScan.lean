import Mathlib.Data.List.Induction
import Shale.Foundation.OrderedUnion
import Shale.Storage.MemoryTx
import Shale.Storage.PrefixScan

/-!
# Scans of transactions

`ScanPrefix` of the transactions of the in-memory and the Pebble backend. Both lay the buffered
writes and deletes over a scan of what is underneath: the in-memory one over the parent's live
contents, the Pebble one over a snapshot taken by `Begin`.
-/

namespace Shale

open OrderedUnion List

/-- The iterators over pairs that have been collected and sorted (`iterator` of the in-memory
backend, `memIterator`). Their keys are made from strings and never nil. -/
structure ListIterator where
  pairs : List (Bytes × Bytes)
  pos : Nat

def ListIterator.next (it : ListIterator) : Option Bytes × Bytes × ListIterator :=
  match it.pairs[it.pos]? with
  | none => (none, [], it)
  | some (key, value) => (some key, value, { it with pos := it.pos + 1 })

theorem ListIterator.yields (pairs : List (Bytes × Bytes)) :
    Yields ListIterator.next ⟨pairs, 0⟩ pairs := by
  -- With the first `pos` pairs taken, the turns that are left are those of the rest.
  have drained : ∀ fuel pos, pairs.length < pos + fuel → pos ≤ pairs.length →
      Loop.run (drainTurn ListIterator.next) fuel (⟨pairs, pos⟩, pairs.take pos) =
        some pairs := by
    intro fuel
    induction fuel with
    | zero => exact fun pos spent within => absurd spent (Nat.not_lt.mpr within)
    | succ fuel ih =>
      intro pos spent within
      rcases Nat.lt_or_eq_of_le within with inside | rfl
      · have continues : drainTurn ListIterator.next (⟨pairs, pos⟩, pairs.take pos) =
            .inr (⟨pairs, pos + 1⟩, pairs.take (pos + 1)) := by
          simp [drainTurn, ListIterator.next, List.getElem?_eq_getElem inside]
        rw [Loop.run_of_continues continues]
        exact ih (pos + 1) (by omega) inside
      · refine Loop.run_of_ends ?_
        simp [drainTurn, ListIterator.next]
  exact ⟨pairs.length + 1, fun fuel enough => drained fuel 0 (by omega) (Nat.zero_le _)⟩

def withPrefix (pre : Bytes) (entries : List (Bytes × Bytes)) : List (Bytes × Bytes) :=
  entries.filter fun entry => pre.isPrefixOf entry.1

theorem mem_withPrefix {pre key value : Bytes} {entries : List (Bytes × Bytes)} :
    (key, value) ∈ withPrefix pre entries ↔ (key, value) ∈ entries ∧ pre <+: key := by
  rw [withPrefix, mem_filter, isPrefixOf_iff_prefix]

theorem nodup_withPrefix (pre : Bytes) (store : Store Bytes) :
    ((withPrefix pre store.scan).map Prod.fst).Nodup :=
  (filter_sublist.map Prod.fst).nodup store.nodup_scan

def Memory.scanPrefix (store : Store Bytes) (pre : Bytes) : ListIterator :=
  ⟨sortPairs (withPrefix pre store.scan), 0⟩

theorem Memory.scans_scanPrefix (store : Store Bytes) (pre : Bytes) :
    Scans store.get pre (Memory.scanPrefix store pre).pairs := by
  refine .of_sort (nodup_withPrefix pre store) ?_
  intro key value
  rw [mem_withPrefix, Store.mem_scan, and_comm]

namespace MemoryTx

section Overlay

variable {Value : Type}

/-- A transaction after its own `Put`s and `Delete`s. -/
def applied (ops : List (Bytes × Option Value)) : MemoryTx Value :=
  ops.foldl (fun tx op => tx.write op.1 op.2) begin

theorem applied_append (ops : List (Bytes × Option Value)) (op : Bytes × Option Value) :
    applied (ops ++ [op]) = (applied ops).write op.1 op.2 := by
  rw [applied, foldl_append]
  rfl

/-- What the last operation on a key does to it. -/
def lastOn (ops : List (Bytes × Option Value)) (key : Bytes) : Option (Option Value) :=
  (ops.reverse.find? fun op => op.1 == key).map Prod.snd

theorem get_applied (parent : Store Value) (ops : List (Bytes × Option Value)) (key : Bytes) :
    get parent (applied ops) key = (lastOn ops key).getD (parent.get key) := by
  induction ops using List.reverseRecOn with
  | nil => exact get_begin
  | append_singleton ops op ih =>
    rw [applied_append]
    by_cases same : op.1 = key
    · subst same
      simp [lastOn]
    · rw [get_write_of_ne (Ne.symm same), ih]
      simp [lastOn, same]

theorem lastOn_eq_none_iff {ops : List (Bytes × Option Value)} {key : Bytes} :
    lastOn ops key = none ↔ ∀ effect, (key, effect) ∉ ops := by
  simp only [lastOn, Option.map_eq_none_iff, find?_eq_none, mem_reverse, beq_iff_eq]
  exact ⟨fun apart effect named => apart _ named rfl,
    fun absent op named same => absent op.2 (same ▸ named)⟩

def Apart (tx : MemoryTx Value) : Prop := ∀ key ∈ tx.deletes, tx.writes.get key = none

theorem Apart.write {tx : MemoryTx Value} (apart : tx.Apart) (key : Bytes)
    (effect : Option Value) : (tx.write key effect).Apart := by
  intro other deleted
  cases effect with
  | some value =>
    obtain ⟨kept, differs⟩ := mem_filter.mp deleted
    exact (Store.get_put_of_ne (by simpa using differs)).trans (apart other kept)
  | none =>
    by_cases same : other = key
    · subst same
      exact Store.get_delete_self
    · have kept : other ∈ tx.deletes := by simpa [same, MemoryTx.write, delete] using deleted
      exact (Store.get_delete_of_ne same).trans (apart other kept)

theorem apart_applied (ops : List (Bytes × Option Value)) : (applied ops).Apart := by
  induction ops using List.reverseRecOn with
  | nil => exact fun key deleted => absurd deleted not_mem_nil
  | append_singleton ops op ih =>
    rw [applied_append]
    exact ih.write op.1 op.2

end Overlay

def overlaid (tx : MemoryTx Bytes) (entry : Bytes × Bytes) : Option (Bytes × Bytes) :=
  if entry.1 ∈ tx.deletes then none
  else
    match tx.writes.get entry.1 with
    | some overlay => some (entry.1, overlay)
    | none => some entry

def scanPrefix (parent : Store Bytes) (tx : MemoryTx Bytes) (pre : Bytes) : ListIterator :=
  let pairs := (Memory.scanPrefix parent pre).pairs.filterMap tx.overlaid
  ⟨sortPairs (appendNewBy Prod.fst pairs (withPrefix pre tx.writes.scan)), 0⟩

variable {tx : MemoryTx Bytes}

theorem overlaid_eq {parent : Store Bytes} {key old : Bytes} (held : parent.get key = some old) :
    tx.overlaid (key, old) = (get parent tx key).map (Prod.mk key) := by
  unfold overlaid get
  split
  · rfl
  · cases tx.writes.get key <;> simp [held]

theorem mem_kept {parent : Store Bytes} {pre key value : Bytes} :
    (key, value) ∈ (Memory.scanPrefix parent pre).pairs.filterMap tx.overlaid ↔
      pre <+: key ∧ (parent.get key).isSome ∧ get parent tx key = some value := by
  have scans := Memory.scans_scanPrefix parent pre
  rw [mem_filterMap]
  constructor
  · rintro ⟨⟨first, old⟩, mem, made⟩
    obtain ⟨pref, held⟩ := scans.exact.mp mem
    rw [overlaid_eq held] at made
    obtain ⟨value, read, same⟩ := Option.map_eq_some_iff.mp made
    cases same
    exact ⟨pref, by simp [held], read⟩
  · rintro ⟨pref, held, read⟩
    obtain ⟨old, held⟩ := Option.isSome_iff_exists.mp held
    exact ⟨(key, old), scans.exact.mpr ⟨pref, held⟩, by rw [overlaid_eq held, read]; rfl⟩

theorem nodup_kept (parent : Store Bytes) (tx : MemoryTx Bytes) (pre : Bytes) :
    (((Memory.scanPrefix parent pre).pairs.filterMap tx.overlaid).map Prod.fst).Nodup := by
  have named : ∀ {entry made}, tx.overlaid entry = some made → made.1 = entry.1 := by
    intro entry made same
    unfold overlaid at same
    split at same
    · cases same
    · split at same <;> cases same <;> rfl
  rw [List.Nodup, pairwise_map, pairwise_filterMap]
  refine (Memory.scans_scanPrefix parent pre).ascending.imp fun less => ?_
  intro left leftMade right rightMade
  rw [named leftMade, named rightMade]
  exact less.ne

theorem scans_scanPrefix (parent : Store Bytes) (apart : tx.Apart) (pre : Bytes) :
    Scans (get parent tx) pre (scanPrefix parent tx pre).pairs := by
  refine .of_sort ?_ ?_
  · rw [map_appendNewBy]
    exact nodup_appendNew (nodup_kept parent tx pre)
  intro key value
  rw [mem_appendNewBy _ (nodup_withPrefix pre tx.writes), mem_kept, mem_withPrefix, Store.mem_scan]
  constructor
  · rintro (⟨pref, -, read⟩ | ⟨⟨written, pref⟩, -⟩)
    · exact ⟨pref, read⟩
    · have kept : key ∉ tx.deletes := fun deleted => by simp [apart key deleted] at written
      exact ⟨pref, by simp [get, kept, written]⟩
  · rintro ⟨pref, read⟩
    cases held : parent.get key with
    | some old => exact .inl ⟨pref, rfl, read⟩
    | none =>
      refine .inr ⟨⟨?_, pref⟩, fun listed => ?_⟩
      · unfold get at read
        split at read
        · cases read
        · cases written : tx.writes.get key <;> simp_all
      · obtain ⟨⟨_, other⟩, mem, rfl⟩ := mem_map.mp listed
        have present := (mem_kept.mp mem).2.1
        simp [held] at present

def rollback (parent : Store Bytes) (_tx : MemoryTx Bytes) : Store Bytes × MemoryTx Bytes :=
  (parent, begin)

end MemoryTx

/-- A Pebble transaction: the snapshot taken by `Begin`, the batch, and the overlay that its
reads consult, which is kept as in the in-memory backend. -/
structure PebbleTx where
  snap : Store Bytes
  batch : List (Bytes × Option Bytes)
  overlay : MemoryTx Bytes

namespace PebbleTx

def begin (db : Store Bytes) : PebbleTx := ⟨db, [], .begin⟩

def get (tx : PebbleTx) (key : Bytes) : Option Bytes := MemoryTx.get tx.snap tx.overlay key

/-- `transaction.Put` and `transaction.Delete`. -/
def write (tx : PebbleTx) (key : Bytes) (effect : Option Bytes) : PebbleTx :=
  { tx with
    batch := tx.batch ++ [(key, effect)]
    overlay := tx.overlay.write key effect }

def scanPrefix (tx : PebbleTx) (pre : Bytes) : ListIterator :=
  let pairs := (Pebble.range tx.snap pre (Pebble.prefixUpperBound pre)).foldl
    (fun pairs entry => pairs.put entry.1 entry.2) ∅
  let pairs := (tx.overlay.deletes.filter fun key => pre.isPrefixOf key).foldl Store.delete pairs
  let pairs := (withPrefix pre tx.overlay.writes.scan).foldl
    (fun pairs entry => pairs.put entry.1 entry.2) pairs
  ⟨sortPairs pairs.scan, 0⟩

def commit (db : Store Bytes) (tx : PebbleTx) : Store Bytes :=
  tx.batch.foldl (fun db op => db.write op.1 op.2) db

def rollback (db : Store Bytes) (tx : PebbleTx) : Store Bytes × PebbleTx :=
  (db, { tx with batch := [], overlay := .begin })

def applied (db : Store Bytes) (ops : List (Bytes × Option Bytes)) : PebbleTx :=
  ops.foldl (fun tx op => tx.write op.1 op.2) (begin db)

theorem applied_eq (db : Store Bytes) (ops : List (Bytes × Option Bytes)) :
    applied db ops = ⟨db, ops, .applied ops⟩ := by
  induction ops using List.reverseRecOn with
  | nil => rfl
  | append_singleton ops op ih =>
    rw [MemoryTx.applied_append, applied, foldl_append, ← applied, ih]
    rfl

theorem get_commit (db : Store Bytes) (ops : List (Bytes × Option Bytes)) (key : Bytes) :
    (commit db (applied db ops)).get key = (applied db ops).get key := by
  rw [applied_eq, commit, get]
  induction ops using List.reverseRecOn with
  | nil => rfl
  | append_singleton ops op ih =>
    rw [MemoryTx.applied_append, foldl_append]
    by_cases same : key = op.1
    · subst same
      simp
    · rw [MemoryTx.get_write_of_ne same, ← ih]
      exact Store.get_write_of_ne same

theorem scans_scanPrefix (tx : PebbleTx) (apart : tx.overlay.Apart) (pre : Bytes) :
    Scans tx.get pre (tx.scanPrefix pre).pairs := by
  have scans := Pebble.scans_range tx.snap pre
  have distinct := pairwise_map.mpr (scans.ascending.imp LT.lt.ne)
  refine .of_sort (Store.nodup_scan _) ?_
  intro key value
  rw [Store.mem_scan, Store.get_foldl_put (nodup_withPrefix pre tx.overlay.writes), mem_withPrefix,
    Store.mem_scan, Store.get_foldl_delete]
  have underneath := @Store.get_foldl_put _ _ distinct ∅ key value
  rw [scans.exact, Store.get_empty] at underneath
  have listed : key ∈ (withPrefix pre tx.overlay.writes.scan).map Prod.fst ↔
      (tx.overlay.writes.get key).isSome ∧ pre <+: key := by
    simp [mem_withPrefix, Store.mem_scan, Option.isSome_iff_exists]
  simp only [listed, mem_filter, isPrefixOf_iff_prefix, get, MemoryTx.get]
  by_cases pref : pre <+: key
  · by_cases deleted : key ∈ tx.overlay.deletes
    · simp [pref, deleted, apart key deleted]
    · cases written : tx.overlay.writes.get key with
      | some other => simp [pref, deleted]
      | none => simpa [pref, deleted] using underneath
  · simpa [pref] using underneath

end PebbleTx

/-- What a transaction with these operations over `base` reads, scans and leaves behind. -/
structure Coherent (base : Store Bytes) (ops : List (Bytes × Option Bytes))
    (get : Bytes → Option Bytes) (scanPrefix : Bytes → ListIterator)
    (committed rolledBack : Store Bytes) : Prop where
  reads : ∀ key, get key = (MemoryTx.lastOn ops key).getD (base.get key)
  scans : ∀ pre, ∃ pairs,
    Yields ListIterator.next (scanPrefix pre) pairs ∧ Scans get pre pairs
  committed_eq : ∀ key, committed.get key = get key
  untouched : ∀ key, (∀ effect, (key, effect) ∉ ops) → committed.get key = base.get key
  rolledBack_eq : rolledBack = base

/-- **Overlay coherence**, of both backends. -/
theorem transaction_overlays_coherent (base : Store Bytes) (ops : List (Bytes × Option Bytes)) :
    Coherent base ops (MemoryTx.get base (.applied ops)) (MemoryTx.scanPrefix base (.applied ops))
      (MemoryTx.commit base (.applied ops)) (MemoryTx.rollback base (.applied ops)).1 ∧
    Coherent base ops (PebbleTx.get (.applied base ops)) (PebbleTx.scanPrefix (.applied base ops))
      (PebbleTx.commit base (.applied base ops))
      (PebbleTx.rollback base (.applied base ops)).1 := by
  have reads := MemoryTx.get_applied base ops
  have untouched : ∀ key, (∀ effect, (key, effect) ∉ ops) →
      MemoryTx.get base (.applied ops) key = base.get key := by
    intro key unwritten
    rw [reads, MemoryTx.lastOn_eq_none_iff.mpr unwritten, Option.getD_none]
  have apart := MemoryTx.apart_applied ops
  constructor
  · refine ⟨reads, fun pre => ?_, MemoryTx.get_commit base _, fun key unwritten => ?_, rfl⟩
    · exact ⟨_, ListIterator.yields _, MemoryTx.scans_scanPrefix base apart pre⟩
    · rw [MemoryTx.get_commit, untouched key unwritten]
  · have view := PebbleTx.applied_eq base ops
    refine ⟨by rwa [view], fun pre => ?_, PebbleTx.get_commit base ops, fun key unwritten => ?_,
      rfl⟩
    · exact ⟨_, ListIterator.yields _, PebbleTx.scans_scanPrefix _ (by rwa [view]) pre⟩
    · rw [PebbleTx.get_commit, view]
      exact untouched key unwritten

namespace MemoryTx

/-- The calls of one transaction, and what others do to the database meanwhile. -/
inductive Event where
  | get (key : Bytes)
  | scanPrefix (pre : Bytes)
  | write (key : Bytes) (effect : Option Bytes)
  | otherWrite (key : Bytes) (effect : Option Bytes)
  | otherCommit (other : MemoryTx Bytes)

structure Session where
  db : Store Bytes
  tx : MemoryTx Bytes

def Session.step (s : Session) : Event → Session
  | .get _ | .scanPrefix _ => s
  | .write key effect => { s with tx := s.tx.write key effect }
  | .otherWrite key effect => { s with db := s.db.write key effect }
  | .otherCommit other => { s with db := other.commit s.db }

def Session.run (base : Store Bytes) (history : List Event) : Session :=
  history.foldl step ⟨base, begin⟩

def Session.ReadsSnapshot (base : Store Bytes) (s : Session) : Event → Prop
  | .get key => MemoryTx.get s.db s.tx key = MemoryTx.get base s.tx key
  | .scanPrefix pre => ∃ pairs,
      Yields ListIterator.next (MemoryTx.scanPrefix s.db s.tx pre) pairs ∧
        Scans (MemoryTx.get base s.tx) pre pairs
  | _ => True

def Event.Covers : Event → Bytes → Prop
  | .get key, other => other = key
  | .scanPrefix pre, other => pre <+: other
  | _, _ => False

def ownOps (history : List Event) : List (Bytes × Option Bytes) :=
  history.filterMap fun
    | .write key effect => some (key, effect)
    | _ => none

theorem tx_run (base : Store Bytes) (history : List Event) :
    (Session.run base history).tx = applied (ownOps history) := by
  induction history using List.reverseRecOn with
  | nil => rfl
  | append_singleton history event ih =>
    rw [Session.run] at ih ⊢
    cases event <;> simp [ownOps, Session.step, ih, applied_append]

theorem mem_ownOps {history : List Event} {key : Bytes} {effect : Option Bytes} :
    (key, effect) ∈ ownOps history ↔ .write key effect ∈ history := by
  rw [ownOps, mem_filterMap]
  constructor
  · rintro ⟨event, member, made⟩
    cases event <;> cases made
    exact member
  · exact fun member => ⟨_, member, rfl⟩

theorem get_run_eq_iff (base : Store Bytes) (history : List Event) (key : Bytes) :
    get (Session.run base history).db (Session.run base history).tx key =
        get base (Session.run base history).tx key ↔
      ((∀ effect, .write key effect ∉ history) →
        (Session.run base history).db.get key = base.get key) := by
  rw [tx_run, get_applied, get_applied]
  simp only [← mem_ownOps, ← lastOn_eq_none_iff]
  cases lastOn (ownOps history) key <;> simp

theorem readsSnapshot_iff (base : Store Bytes) (history : List Event) (event : Event) :
    (Session.run base history).ReadsSnapshot base event ↔
      ∀ key, event.Covers key → (∀ effect, .write key effect ∉ history) →
        (Session.run base history).db.get key = base.get key := by
  simp only [← get_run_eq_iff]
  cases event with
  | get key => exact ⟨fun same other covers => covers ▸ same, fun same => same key rfl⟩
  | scanPrefix pre =>
    have yields := ListIterator.yields
      (scanPrefix (Session.run base history).db (Session.run base history).tx pre).pairs
    have apart : (Session.run base history).tx.Apart := by
      rw [tx_run]
      exact apart_applied _
    refine Iff.trans ?_ (Scans.congr_iff (scans_scanPrefix _ apart pre))
    constructor
    · rintro ⟨pairs, drained, wanted⟩
      exact drained.unique yields ▸ wanted
    · exact fun wanted => ⟨_, yields, wanted⟩
  | write | otherWrite | otherCommit => exact ⟨fun _ _ covers => covers.elim, fun _ => trivial⟩

/-- **Snapshot isolation of in-memory transactions.** Every read returns the contents as of
`Begin` overlaid with the transaction's own writes exactly if, whenever a read comes to a key
that the transaction has not written, the database holds for it what it held then. -/
theorem memory_snapshot_isolation_iff (base : Store Bytes) (history : List Event) :
    (∀ before event after, history = before ++ event :: after →
        (Session.run base before).ReadsSnapshot base event) ↔
      ∀ before event after, history = before ++ event :: after →
        ∀ key, event.Covers key → (∀ effect, .write key effect ∉ before) →
          (Session.run base before).db.get key = base.get key := by
  simp only [readsSnapshot_iff]

/-- Another writer's `Put` between two `Get`s of a key. -/
theorem memory_read_not_repeatable :
    let before := [.get [1], .otherWrite [1] (some [2])]
    get (Session.run ∅ []).db (Session.run ∅ []).tx [1] = none ∧
      get (Session.run ∅ before).db (Session.run ∅ before).tx [1] = some [2] ∧
      ¬ (Session.run ∅ before).ReadsSnapshot ∅ (.get [1]) := by
  refine ⟨by decide, by decide, fun same => ?_⟩
  have differ : (some [2] : Option Bytes) = none := same
  cases differ

end MemoryTx

end Shale
