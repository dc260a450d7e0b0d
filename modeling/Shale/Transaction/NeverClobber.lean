import Mathlib.Order.WithBot
import Shale.Transaction.Validation

/-!
# Stored stamps of a replicated position

An apply compares a stamp under `applyMu` and puts it later; a commit observes the stored stamps
under `casCommitMu`, draws a higher one and puts it later without a compare. Each lock protects its
own window and not the other one.
-/

namespace Shale.Position

open Machine

def storedAt (db : Store Cell) (key : Bytes) : WithBot Stamp :=
  match db.get key with
  | none => ⊥
  | some cell => envelopeLayout.storedStamp cell

def ApplyTx.won {Value : Type} (tx : ApplyTx Value) : List Bytes :=
  match tx.phase with
  | .comparing key _ _ true | .putting key _ => key :: tx.overlay.writes.keys
  | _ => tx.overlay.writes.keys

def CasTx.stamped {Value : Type} (tx : CasTx Value) : List Bytes :=
  match tx.phase with
  | .writing _ _ => tx.call.writes.map WriteOp.key
  | _ => []

/-- The steps that no window of the other lock is open for: a stamp is drawn below the
ceiling of the clock; a commit writes no key that an open apply has won its compare on; and
an apply writes no key that an open commit has drawn its stamp for. -/
def careful (s : State Cell) : Action Cell → Bool
  | .stepCas true _ =>
    match s.committing with
    | none => true
    | some tx =>
      match tx.phase with
      | .stamping => decide (s.clock ≠ maxStamp)
      | .writing _ [] =>
        decide (∀ apply ∈ s.applying, ∀ op ∈ tx.call.writes, op.key ∉ apply.won)
      | _ => true
  | .stepApply true =>
    match s.applying with
    | none => true
    | some tx =>
      match tx.phase, tx.todo with
      | .next, [] => decide (∀ commit ∈ s.committing, ∀ key ∈ tx.won, key ∉ commit.stamped)
      | _, _ => true
  | _ => true

def Seen (db : Store Cell) (clock : Nat) (key : Bytes) : Prop :=
  ∀ cell, db.get key = some cell → (envelopeLayout.storedStamp cell).timestamp ≤ clock

structure Beats (db : Store Cell) (clock : Nat) (key : Bytes) (cell : Cell) : Prop where
  newer : storedAt db key < envelopeLayout.storedStamp cell
  seen : (envelopeLayout.storedStamp cell).timestamp ≤ clock

/-- The invariant of an open commit: it has observed the stamps of the keys it has been
through, and the stamp it has drawn is above those of all its keys. -/
structure CasTx.Ratcheted (db : Store Cell) (clock : Nat) (tx : CasTx Cell) : Prop where
  validated : ∀ entry ∈ tx.validated, Seen db clock entry.1.key
  phase : match tx.phase with
    | .judging check got _ _ => Seen db clock check.key ∨ got = db.get check.key
    | .observing todo noted =>
      (∀ key ∈ noted, Seen db clock key) ∧
        ∀ op ∈ tx.call.writes, op ∈ todo ∨ Seen db clock op.key
    | .noting key stamp todo noted =>
      (∀ other ∈ noted, Seen db clock other) ∧
        (∀ op ∈ tx.call.writes, op ∈ todo ∨ op.key = key ∨ Seen db clock op.key) ∧
        (Seen db clock key ∨ envelopeLayout.blindStamp (db.get key) = some stamp)
    | .stamping => ∀ op ∈ tx.call.writes, Seen db clock op.key
    | .writing stamp _ =>
      stamp.timestamp ≤ clock ∧ ∀ op ∈ tx.call.writes, storedAt db op.key < stamp
    | _ => True

structure ApplyTx.Newer (db : Store Cell) (clock : Nat) (tx : ApplyTx Cell) : Prop where
  buffered : ∀ key cell, tx.overlay.writes.get key = some cell → Beats db clock key cell
  phase : match tx.phase with
    | .next => True
    | .incoming _ cell stamp => envelopeLayout.stamp cell = some stamp
    | .reading _ cell stamp => envelopeLayout.stamp cell = some stamp ∧ stamp.timestamp ≤ clock
    | .comparing key cell _ apply => apply = true → Beats db clock key cell
    | .putting key cell => Beats db clock key cell

section Updates

variable {db db' : Store Cell} {clock clock' : Nat} {key : Bytes} {cell : Cell} {stamp : Stamp}

theorem storedAt_congr (same : db'.get key = db.get key) : storedAt db' key = storedAt db key := by
  rw [storedAt, storedAt, same]

theorem storedAt_of_get (held : db.get key = some cell) :
    storedAt db key = envelopeLayout.storedStamp cell := by
  rw [storedAt, held]

theorem Seen.mono (seen : Seen db clock key) (le : clock ≤ clock') : Seen db clock' key :=
  fun cell held => (seen cell held).trans le

theorem seen_of_blindStamp (read : envelopeLayout.blindStamp (db.get key) = some stamp)
    (le : stamp.timestamp ≤ clock) : Seen db clock key := by
  intro cell held
  rw [held, Layout.blindStamp] at read
  rwa [Layout.storedStamp, read]

theorem Seen.storedAt_lt (seen : Seen db clock key) (above : clock < stamp.timestamp) :
    storedAt db key < stamp := by
  rw [storedAt]
  split
  · exact WithBot.bot_lt_coe stamp
  case h_2 cell held =>
    exact WithBot.coe_lt_coe.mpr (Stamp.lt_iff.mpr (.inl ((seen cell held).trans_lt above)))

theorem Beats.update (beats : Beats db clock key cell) (le : clock ≤ clock')
    (same : db'.get key = db.get key) : Beats db' clock' key cell :=
  ⟨storedAt_congr same ▸ beats.newer, beats.seen.trans le⟩

theorem CasTx.Ratcheted.update {tx : CasTx Cell} (ratcheted : tx.Ratcheted db clock)
    (le : clock ≤ clock') (changed : ∀ key, db'.get key = db.get key ∨ Seen db' clock' key)
    (apart : ∀ key ∈ tx.stamped, db'.get key = db.get key) : tx.Ratcheted db' clock' := by
  have keeps : ∀ {key}, Seen db clock key → Seen db' clock' key := fun {key} seen =>
    (changed key).elim (fun same cell held => (seen cell (same ▸ held)).trans le) id
  obtain ⟨validated, phase⟩ := ratcheted
  refine ⟨fun entry passed => keeps (validated entry passed), ?_⟩
  cases shape : tx.phase with
  | locked | begun | validating _ => trivial
  | judging check got since todo =>
    simp only [shape] at phase
    rcases changed check.key with same | seen
    · exact phase.imp keeps fun got => got.trans same.symm
    · exact .inl seen
  | observing todo noted =>
    simp only [shape] at phase
    exact ⟨fun key member => keeps (phase.1 key member),
      fun op written => (phase.2 op written).imp_right keeps⟩
  | noting key stamp todo noted =>
    simp only [shape] at phase
    refine ⟨fun other member => keeps (phase.1 other member),
      fun op written => (phase.2.1 op written).imp_right (Or.imp_right keeps), ?_⟩
    rcases changed key with same | seen
    · exact phase.2.2.imp keeps fun read => same ▸ read
    · exact .inl seen
  | stamping =>
    simp only [shape] at phase
    exact fun op written => keeps (phase op written)
  | writing stamp todo =>
    simp only [shape, stamped] at phase apart
    refine ⟨phase.1.trans le, fun op written => ?_⟩
    rw [storedAt_congr (apart op.key (List.mem_map_of_mem written))]
    exact phase.2 op written

variable {tx : ApplyTx Cell}

theorem ApplyTx.mem_won (buffered : tx.overlay.writes.get key = some cell) :
    key ∈ tx.won := by
  unfold won
  split <;> simp [Store.mem_keys_of_get buffered]

theorem ApplyTx.Newer.update (newer : tx.Newer db clock) (le : clock ≤ clock')
    (apart : ∀ key ∈ tx.won, db'.get key = db.get key) :
    tx.Newer db' clock' := by
  obtain ⟨buffered, phase⟩ := newer
  refine ⟨fun key cell held => (buffered key cell held).update le (apart key (mem_won held)), ?_⟩
  cases shape : tx.phase with
  | next => trivial
  | incoming key cell stamp =>
    simp only [shape] at phase
    exact phase
  | reading key cell stamp =>
    simp only [shape] at phase
    exact ⟨phase.1, phase.2.trans le⟩
  | comparing key cell stored apply =>
    simp only [shape] at phase
    rintro rfl
    exact (phase rfl).update le (apart key (by simp [won, shape]))
  | putting key cell =>
    simp only [shape] at phase
    exact phase.update le (apart key (by simp [won, shape]))

end Updates

section CommitSteps

variable {node wall clock : Nat} {s : State Cell} {tx next : CasTx Cell} {db : Store Cell}
  {foreign : List Bytes}

theorem casAdvance_clock_le : s.clock ≤ (casAdvance envelopeLayout node wall s tx).clock := by
  unfold casAdvance
  split
  case h_4 =>
    split
    · exact le_rfl
    · split <;> exact le_max_left _ _
  case h_5 => split <;> exact le_rfl
  case h_6 => split <;> (try split) <;> exact le_rfl
  case h_7 => exact le_max_left _ _
  case h_9 => exact le_nextStamp s.clock wall
  all_goals exact le_rfl

theorem blindStamp_of_casReadPayload {got : Option Cell} {found : Option Bytes} {stamp : Stamp}
    (read : envelopeLayout.casReadPayload got = some (found, stamp)) :
    envelopeLayout.blindStamp got = some stamp := by
  rcases got with _ | ⟨env⟩ | _
  · cases read
    rfl
  · cases read
    rfl
  · cases read

namespace CasTx.Ratcheted

variable {noted : List Bytes} {todo : List WriteOp} {stamp : Stamp} {op : WriteOp}

section

variable (ratcheted : tx.Ratcheted db clock)
include ratcheted

theorem pass {check : ReadCheck} {got : Option Cell} {since : Nat} {todo : List ReadCheck}
    {found : Option Bytes} (judging : tx.phase = .judging check got since todo)
    (payload : envelopeLayout.casReadPayload got = some (found, stamp)) :
    ({ tx with
        validated := tx.validated ++ [(check, since)]
        phase := .validating todo } : CasTx Cell).Ratcheted db (max clock stamp.timestamp) := by
  have known := ratcheted.phase
  simp only [judging] at known
  refine ⟨fun entry passed => ?_, trivial⟩
  rcases mem_snoc.mp passed with earlier | rfl
  · exact (ratcheted.validated entry earlier).mono (le_max_left _ _)
  · rcases known with seen | rfl
    · exact seen.mono (le_max_left _ _)
    · exact seen_of_blindStamp (blindStamp_of_casReadPayload payload) (le_max_right _ _)

theorem seen_of_not_blind (sound : tx.Sound envelopeLayout db foreign)
    (observing : tx.phase = .observing todo noted) (known : ¬ tx.Blind op noted) :
    Seen db clock op.key := by
  have checked := sound.checks
  have phase := ratcheted.phase
  simp only [unchecked, observing, List.append_nil] at checked phase
  by_cases read : op.key ∈ tx.call.reads.map ReadCheck.key
  · rw [← checked, List.map_map] at read
    obtain ⟨entry, passed, key⟩ := List.mem_map.mp read
    exact key ▸ ratcheted.validated entry passed
  · exact phase.1 op.key (by_contra fun fresh => known ⟨read, fresh⟩)

theorem skip (observing : tx.phase = .observing (op :: todo) noted) (seen : Seen db clock op.key) :
    ({ tx with phase := .observing todo noted } : CasTx Cell).Ratcheted db clock := by
  have known := ratcheted.phase
  simp only [observing] at known
  refine ⟨ratcheted.validated, known.1, fun other written => ?_⟩
  rcases known.2 other written with pending | seen
  · rcases List.mem_cons.mp pending with rfl | later
    · exact .inr seen
    · exact .inl later
  · exact .inr seen

theorem blind (observing : tx.phase = .observing (op :: todo) noted)
    (read : envelopeLayout.blindStamp (db.get op.key) = some stamp) :
    ({ tx with phase := .noting op.key stamp todo noted } : CasTx Cell).Ratcheted db clock := by
  have known := ratcheted.phase
  simp only [observing] at known
  refine ⟨ratcheted.validated, known.1, fun other written => ?_, .inr read⟩
  rcases known.2 other written with pending | seen
  · rcases List.mem_cons.mp pending with rfl | later
    · exact .inr (.inl rfl)
    · exact .inl later
  · exact .inr (.inr seen)

theorem note {key : Bytes} (noting : tx.phase = .noting key stamp todo noted) :
    ({ tx with phase := .observing todo (key :: noted) } : CasTx Cell).Ratcheted db
      (max clock stamp.timestamp) := by
  have known := ratcheted.phase
  simp only [noting] at known
  have later : ∀ {other}, Seen db clock other → Seen db (max clock stamp.timestamp) other :=
    fun seen => seen.mono (le_max_left _ _)
  have observed : Seen db (max clock stamp.timestamp) key :=
    known.2.2.elim later fun read => seen_of_blindStamp read (le_max_right _ _)
  refine ⟨fun entry passed => later (ratcheted.validated entry passed), ?_, fun op written => ?_⟩
  · rintro other (_ | ⟨_, earlier⟩)
    · exact observed
    · exact later (known.1 other earlier)
  · rcases known.2.1 op written with pending | same | seen
    · exact .inl pending
    · exact .inr (same ▸ observed)
    · exact .inr (later seen)

theorem draw (stamping : tx.phase = .stamping) (below : clock ≠ maxStamp) (node wall : Nat) :
    ({ tx with phase := .writing ⟨nextStamp clock wall, node⟩ tx.call.writes } :
      CasTx Cell).Ratcheted db (nextStamp clock wall) := by
  have known := ratcheted.phase
  simp only [stamping] at known
  have above := lt_nextStamp below wall
  exact ⟨fun entry passed => (ratcheted.validated entry passed).mono above.le, le_rfl,
    fun op written => (known op written).storedAt_lt above⟩

end

theorem casAdvance (ratcheted : tx.Ratcheted s.db s.clock)
    (sound : tx.Sound envelopeLayout s.db s.foreign)
    (below : tx.phase = .stamping → s.clock ≠ maxStamp)
    (continues : (casAdvance envelopeLayout node wall s tx).committing = some next) :
    next.Ratcheted s.db (casAdvance envelopeLayout node wall s tx).clock := by
  have known := ratcheted.phase
  cases shape : tx.phase with
  | locked | begun =>
    simp only [Position.casAdvance, shape] at continues ⊢
    cases continues
    exact ⟨ratcheted.validated, trivial⟩
  | validating todo =>
    cases todo with
    | nil =>
      simp only [Position.casAdvance, shape] at continues ⊢
      cases continues
      exact ⟨ratcheted.validated, by simp, fun op written => .inl written⟩
    | cons check todo =>
      have empty := sound.overlay_eq_begin (by simp [unwritten, shape])
      simp only [Position.casAdvance, shape] at continues ⊢
      cases continues
      exact ⟨ratcheted.validated, .inr (by rw [empty, MemoryTx.get_begin])⟩
  | judging check got since todo =>
    cases payload : envelopeLayout.casReadPayload got with
    | none =>
      simp only [Position.casAdvance, shape, payload] at continues
      cases continues
    | some read =>
      by_cases same : read.1 = check.expected
      · simp only [Position.casAdvance, shape, payload, same, ↓reduceIte] at continues ⊢
        cases continues
        exact ratcheted.pass shape payload
      · simp only [Position.casAdvance, shape, payload, same, ↓reduceIte] at continues
        cases continues
  | observing todo noted =>
    cases todo with
    | nil =>
      simp only [shape] at known
      simp only [Position.casAdvance, shape] at continues ⊢
      cases continues
      exact ⟨ratcheted.validated, fun op written => (known.2 op written).resolve_left (by simp)⟩
    | cons op todo =>
      have empty := sound.overlay_eq_begin (by simp [unwritten, shape])
      by_cases fresh : tx.Blind op noted
      · cases read : envelopeLayout.blindStamp (s.db.get op.key) with
        | none =>
          simp only [Position.casAdvance, shape, fresh, ↓reduceIte, empty,
            MemoryTx.get_begin, read] at continues
          cases continues
        | some stamp =>
          simp only [Position.casAdvance, shape, fresh, ↓reduceIte, empty,
            MemoryTx.get_begin, read] at continues ⊢
          cases continues
          exact ratcheted.blind shape read
      · simp only [Position.casAdvance, shape, fresh, ↓reduceIte] at continues ⊢
        cases continues
        exact ratcheted.skip shape (ratcheted.seen_of_not_blind sound shape fresh)
  | noting key stamp todo noted =>
    simp only [Position.casAdvance, shape] at continues ⊢
    cases continues
    exact ratcheted.note shape
  | stamping =>
    simp only [Position.casAdvance, shape] at continues ⊢
    cases continues
    exact ratcheted.draw shape (below shape) node wall
  | writing stamp todo =>
    simp only [shape] at known
    cases todo with
    | nil =>
      simp only [Position.casAdvance, shape] at continues
      cases continues
    | cons op todo =>
      simp only [Position.casAdvance, shape] at continues ⊢
      cases continues
      exact ⟨ratcheted.validated, known⟩

end CasTx.Ratcheted

end CommitSteps

section ApplySteps

variable {clock : Nat} {s : State Cell} {tx next : ApplyTx Cell} {db : Store Cell}

theorem applyAdvance_clock_le : s.clock ≤ (applyAdvance envelopeLayout s tx).clock := by
  unfold applyAdvance
  split
  case h_1 => split <;> (try split) <;> exact le_rfl
  case h_2 | h_4 => exact le_max_left _ _
  all_goals exact le_rfl

theorem applyAdvance_quiet (pending : ¬ (tx.phase = .next ∧ tx.todo = [])) :
    (applyAdvance envelopeLayout s tx).db = s.db := by
  unfold applyAdvance
  split
  case h_1 phase =>
    split
    case h_1 empty => exact absurd ⟨phase, empty⟩ pending
    case h_2 => split <;> rfl
  all_goals rfl

theorem get_of_puts (puts : tx.overlay.deletes = []) (key : Bytes) :
    (∃ cell, tx.overlay.writes.get key = some cell ∧ tx.overlay.get db key = some cell) ∨
      tx.overlay.get db key = db.get key := by
  cases buffered : tx.overlay.writes.get key with
  | none => exact .inr (by simp [MemoryTx.get, puts, buffered])
  | some cell => exact .inl ⟨cell, rfl, by simp [MemoryTx.get, puts, buffered]⟩

namespace ApplyTx.Newer

variable {key : Bytes}

theorem won_compare {stamp : Stamp} (newer : tx.Newer db clock) (puts : tx.overlay.deletes = [])
    (compared : (envelopeLayout.txApplyIfNewer stamp (tx.overlay.get db key)).1 = true) :
    storedAt db key < stamp := by
  rcases get_of_puts puts key with ⟨cell, buffered, read⟩ | read
  · rw [read] at compared
    exact (newer.buffered key cell buffered).newer.trans
      (WithBot.coe_lt_coe.mpr (Stamp.greater_iff.mp compared))
  · rw [read] at compared
    cases held : db.get key with
    | none =>
      rw [storedAt, held]
      exact WithBot.bot_lt_coe stamp
    | some cell =>
      rw [held] at compared
      rw [storedAt_of_get held]
      exact WithBot.coe_lt_coe.mpr (Stamp.greater_iff.mp compared)

theorem put {cell : Cell} (newer : tx.Newer db clock) (putting : tx.phase = .putting key cell) :
    (⟨tx.todo, .next, tx.overlay.put key cell⟩ : ApplyTx Cell).Newer db clock := by
  have beats := newer.phase
  simp only [putting] at beats
  refine ⟨fun other held buffered => ?_, trivial⟩
  by_cases same : other = key
  · subst same
    simp only [MemoryTx.put, Store.get_put_self, Option.some.injEq] at buffered
    exact buffered ▸ beats
  · simp only [MemoryTx.put, Store.get_put_of_ne same] at buffered
    exact newer.buffered other held buffered

theorem applyAdvance (newer : tx.Newer s.db s.clock) (puts : tx.overlay.deletes = [])
    (continues : (applyAdvance envelopeLayout s tx).applying = some next) :
    next.Newer s.db (applyAdvance envelopeLayout s tx).clock := by
  have known := newer.phase
  have grows : s.clock ≤ (Position.applyAdvance envelopeLayout s tx).clock := applyAdvance_clock_le
  have later := (newer.update grows fun _ _ => rfl).buffered
  cases shape : tx.phase with
  | next =>
    cases pending : tx.todo with
    | nil =>
      simp only [Position.applyAdvance, shape, pending] at continues
      cases continues
    | cons entry todo =>
      cases decoded : envelopeLayout.stamp entry.2 with
      | none =>
        simp only [Position.applyAdvance, shape, pending, decoded] at continues
        cases continues
      | some stamp =>
        simp only [Position.applyAdvance, shape, pending, decoded] at continues ⊢
        cases continues
        exact ⟨newer.buffered, decoded⟩
  | incoming key cell stamp =>
    simp only [shape] at known
    simp only [Position.applyAdvance, shape] at continues later ⊢
    cases continues
    exact ⟨later, known, le_max_right _ _⟩
  | reading key cell stamp =>
    simp only [shape] at known
    simp only [Position.applyAdvance, shape] at continues later ⊢
    cases continues
    have same : envelopeLayout.storedStamp cell = stamp := by
      rw [Layout.storedStamp, known.1, Option.getD_some]
    refine ⟨later, fun compared => ⟨?_, same ▸ known.2⟩⟩
    exact same ▸ newer.won_compare puts compared
  | comparing key cell stored apply =>
    simp only [shape] at known
    simp only [Position.applyAdvance, shape] at continues later ⊢
    cases continues
    refine ⟨later, ?_⟩
    cases apply with
    | true => exact (known rfl).update (le_max_left _ _) rfl
    | false => trivial
  | putting key cell =>
    simp only [Position.applyAdvance, shape] at continues ⊢
    cases continues
    exact newer.put shape

end ApplyTx.Newer

end ApplySteps

/-- The invariant of a replicated position. -/
structure Guarded (s : State Cell) : Prop extends Inv envelopeLayout s where
  ratcheted : ∀ {tx}, s.committing = some tx → tx.Ratcheted s.db s.clock
  newer : ∀ {tx}, s.applying = some tx → tx.Newer s.db s.clock

def StampsLe (db db' : Store Cell) : Prop := ∀ key, storedAt db key ≤ storedAt db' key

theorem StampsLe.refl (db : Store Cell) : StampsLe db db := fun _ => le_rfl

theorem execute_envelopes (stamp : Stamp) {ops : List WriteOp} {key : Bytes}
    (written : key ∈ ops.map WriteOp.key) (contents : Bytes → Option Cell) :
    ∃ payload, envelopeLayout.execute stamp ops contents key =
      some (.envelope ⟨stamp, payload⟩) := by
  induction ops using List.reverseRecOn with
  | nil => cases written
  | append_singleton ops op ih =>
    rw [Layout.execute, List.foldl_concat, ← Layout.execute]
    by_cases same : key = op.key
    · exact ⟨op.value.getD [], by rw [same, Function.update_self]; rfl⟩
    · rw [Function.update_of_ne same]
      exact ih (by simpa [same] using written)

namespace Guarded

variable {node wall : Nat} {s s' : State Cell} {ok : Bool} {action : Action Cell}

theorem initial (db : Store Cell) (clock : Nat) : Guarded (initial db clock) where
  toInv := .initial db clock
  ratcheted := nofun
  newer := nofun

variable {stamp : Stamp} {tx : CasTx Cell}

theorem storedAt_commit (guarded : Guarded s) (holder : s.committing = some tx)
    (last : tx.phase = .writing stamp []) (key : Bytes) :
    key ∈ tx.call.writes.map WriteOp.key ∧ storedAt s.db key < stamp ∧
        storedAt (tx.overlay.commit s.db) key = stamp ∨
      key ∉ tx.call.writes.map WriteOp.key ∧ (tx.overlay.commit s.db).get key = s.db.get key := by
  have known := (guarded.ratcheted holder).phase
  simp only [last] at known
  have visible := congrFun ((guarded.commit holder).at_commit last).2 key
  by_cases written : key ∈ tx.call.writes.map WriteOp.key
  · obtain ⟨payload, stored⟩ := execute_envelopes stamp written s.db.get
    obtain ⟨op, mem, rfl⟩ := List.mem_map.mp written
    exact .inl ⟨written, known.2 op mem, storedAt_of_get (visible.trans stored)⟩
  · exact .inr ⟨written, visible.trans (envelopeLayout.execute_of_notMem stamp _ written _)⟩

theorem storedAt_apply {tx : ApplyTx Cell} (guarded : Guarded s) (holder : s.applying = some tx)
    (key : Bytes) :
    key ∈ tx.won ∧ storedAt s.db key < storedAt (tx.overlay.commit s.db) key ∧
        Seen (tx.overlay.commit s.db) s.clock key ∨
      (tx.overlay.commit s.db).get key = s.db.get key := by
  rcases get_of_puts (guarded.apply holder) key with ⟨cell, buffered, read⟩ | read
  · have stored := (MemoryTx.get_commit s.db tx.overlay key).trans read
    have beats := (guarded.newer holder).buffered key cell buffered
    refine .inl ⟨ApplyTx.mem_won buffered, storedAt_of_get stored ▸ beats.newer, ?_⟩
    intro other held
    cases stored.symm.trans held
    exact beats.seen
  · exact .inr ((MemoryTx.get_commit s.db tx.overlay key).trans read)

theorem commitStep (guarded : Guarded s) (holder : s.committing = some tx)
    (last : tx.phase = .writing stamp [])
    (apart : ∀ apply ∈ s.applying, ∀ op ∈ tx.call.writes, op.key ∉ apply.won)
    (inv : Inv envelopeLayout { s.finish tx (.committed stamp) with db := tx.overlay.commit s.db })
    : Guarded { s.finish tx (.committed stamp) with db := tx.overlay.commit s.db } ∧
      StampsLe s.db (tx.overlay.commit s.db) := by
  refine ⟨⟨inv, nofun, fun {apply} open_ => ?_⟩, fun key => ?_⟩
  · refine (guarded.newer open_).update le_rfl fun key won => ?_
    rcases guarded.storedAt_commit holder last key with ⟨written, _⟩ | ⟨_, same⟩
    · obtain ⟨op, mem, rfl⟩ := List.mem_map.mp written
      exact absurd won (apart apply open_ op mem)
    · exact same
  · rcases guarded.storedAt_commit holder last key with ⟨_, below, stored⟩ | ⟨_, same⟩
    · exact stored ▸ below.le
    · exact (storedAt_congr same).ge

theorem casStep (guarded : Guarded s) (safe : careful s (.stepCas ok wall) = true)
    (stepped : casStep envelopeLayout node ok wall s = some s') :
    Guarded s' ∧ StampsLe s.db s'.db := by
  have inv := guarded.toInv.casStep stepped
  obtain ⟨tx, holder, ⟨rfl, rfl⟩ | ⟨rfl, rfl⟩⟩ := of_casStep stepped
  · simp only [careful, holder] at safe
    by_cases last : ∃ stamp, tx.phase = .writing stamp []
    · obtain ⟨stamp, last⟩ := last
      simp only [last] at safe
      simp only [casAdvance, last] at inv ⊢
      exact guarded.commitStep holder last (of_decide_eq_true safe) inv
    · have same : (casAdvance envelopeLayout node wall s tx).db = s.db :=
        (casAdvance_quiet (not_exists.mp last)).1
      refine ⟨⟨inv, fun continues => ?_, fun open_ => ?_⟩, same ▸ StampsLe.refl _⟩
      · rw [same]
        refine (guarded.ratcheted holder).casAdvance (guarded.commit holder) ?_ continues
        intro stamping
        simp only [stamping] at safe
        exact of_decide_eq_true safe
      · rw [same]
        rw [casAdvance_applying] at open_
        exact (guarded.newer open_).update casAdvance_clock_le fun _ _ => rfl
  · exact ⟨⟨inv, fun open_ => (by cases open_), guarded.newer⟩, StampsLe.refl _⟩

theorem applyCommit {tx : ApplyTx Cell} (guarded : Guarded s) (holder : s.applying = some tx)
    (apart : ∀ commit ∈ s.committing, ∀ key ∈ tx.won, key ∉ commit.stamped)
    (inv : Inv envelopeLayout
      { s.rollback with
        db := tx.overlay.commit s.db
        foreign := s.foreign ++ tx.overlay.writes.keys }) :
    Guarded { s.rollback with
        db := tx.overlay.commit s.db
        foreign := s.foreign ++ tx.overlay.writes.keys } ∧
      StampsLe s.db (tx.overlay.commit s.db) := by
  refine ⟨⟨inv, fun {commit} open_ => ?_, nofun⟩, fun key => ?_⟩
  · refine (guarded.ratcheted open_).update le_rfl (fun key => ?_) fun key stamped => ?_
    · rcases guarded.storedAt_apply holder key with ⟨_, _, seen⟩ | same
      · exact .inr seen
      · exact .inl same
    · rcases guarded.storedAt_apply holder key with ⟨won, _⟩ | same
      · exact absurd stamped (apart commit open_ key won)
      · exact same
  · rcases guarded.storedAt_apply holder key with ⟨_, below, _⟩ | same
    · exact below.le
    · exact (storedAt_congr same).ge

theorem applyStep (guarded : Guarded s) (safe : careful s (.stepApply ok) = true)
    (stepped : applyStep envelopeLayout ok s = some s') : Guarded s' ∧ StampsLe s.db s'.db := by
  have inv := guarded.toInv.applyStep stepped
  obtain ⟨tx, holder, ⟨rfl, rfl⟩ | ⟨rfl, rfl⟩⟩ := of_applyStep stepped
  · simp only [careful, holder] at safe
    by_cases last : tx.phase = .next ∧ tx.todo = []
    · simp only [last] at safe
      simp only [applyAdvance, last] at inv ⊢
      exact guarded.applyCommit holder (of_decide_eq_true safe) inv
    · have same : (applyAdvance envelopeLayout s tx).db = s.db := applyAdvance_quiet last
      refine ⟨⟨inv, fun open_ => ?_, fun continues => ?_⟩, same ▸ StampsLe.refl _⟩
      · rw [same]
        rw [applyAdvance_committing] at open_
        exact (guarded.ratcheted open_).update applyAdvance_clock_le (fun _ => .inl rfl)
          fun _ _ => rfl
      · rw [same]
        exact (guarded.newer holder).applyAdvance (guarded.apply holder) continues
  · exact ⟨⟨inv, guarded.ratcheted, fun open_ => (by cases open_)⟩, StampsLe.refl _⟩

theorem step (guarded : Guarded s) (safe : careful s action = true)
    (stepped : step envelopeLayout node action s = some s') : Guarded s' ∧ StampsLe s.db s'.db := by
  have inv := guarded.toInv.step stepped
  cases action with
  | call call =>
    cases stepped
    exact ⟨⟨inv, guarded.ratcheted, guarded.newer⟩, StampsLe.refl _⟩
  | lockCas i =>
    obtain ⟨call, rfl⟩ := of_lockCas stepped
    refine ⟨⟨inv, ?_, guarded.newer⟩, StampsLe.refl _⟩
    rintro _ ⟨⟩
    exact ⟨by simp, trivial⟩
  | stepCas ok wall => exact guarded.casStep safe stepped
  | lockApply writes =>
    obtain rfl := of_lockApply stepped
    refine ⟨⟨inv, guarded.ratcheted, ?_⟩, StampsLe.refl _⟩
    rintro _ ⟨⟩
    exact ⟨by simp [MemoryTx.begin], trivial⟩
  | stepApply ok => exact guarded.applyStep safe stepped
  | plain key effect => cases stepped
  | observe timestamp =>
    cases stepped
    refine ⟨⟨inv, fun open_ => ?_, fun open_ => ?_⟩, StampsLe.refl _⟩
    · exact (guarded.ratcheted open_).update (le_max_left _ _) (fun _ => .inl rfl) fun _ _ => rfl
    · exact (guarded.newer open_).update (le_max_left _ _) fun _ _ => rfl

theorem reaches (guarded : Guarded s)
    (continued : (machine envelopeLayout node).Reaches (fun s action => careful s action = true)
      s s') : Guarded s' ∧ StampsLe s.db s'.db := by
  induction continued with
  | refl => exact ⟨guarded, StampsLe.refl _⟩
  | tail _ safe stepped ih =>
    obtain ⟨kept, le⟩ := ih.1.step safe stepped
    exact ⟨kept, fun key => (ih.2 key).trans (le key)⟩

end Guarded

/-- Along a run in which no step falls into an open window of the other lock, and stamps are
drawn below the ceiling of the clock, stored stamps never go down, and a commit overwrites
only stamps that its own exceeds. -/
theorem stamps_never_decrease {node : Nat} {s s' : State Cell} {db : Store Cell} {clock : Nat}
    (reached : (machine envelopeLayout node).Reaches (fun s action => careful s action = true)
      (initial db clock) s)
    (continued : (machine envelopeLayout node).Reaches (fun s action => careful s action = true)
      s s') :
    (∀ key, storedAt s.db key ≤ storedAt s'.db key) ∧
      ∀ {action : Action Cell} {after : State Cell} {call : CasCall} {stamp : Stamp},
        step envelopeLayout node action s' = some after →
        after.finished = s'.finished ++ [(call, .committed stamp)] →
          ∀ op ∈ call.writes, storedAt s'.db op.key < stamp ∧ storedAt after.db op.key = stamp := by
  have guarded := ((Guarded.initial db clock).reaches reached).1
  obtain ⟨guarded', le⟩ := guarded.reaches continued
  refine ⟨le, fun stepped reported op written => ?_⟩
  obtain ⟨tx, holder, rfl, last, visible⟩ := commit_of_reported stepped reported
  rcases guarded'.storedAt_commit holder last op.key with ⟨_, below, stored⟩ | ⟨unwritten, _⟩
  · exact ⟨below, visible ▸ stored⟩
  · exact absurd (List.mem_map_of_mem written) unwritten

theorem commit_above_concurrent_apply :
    ∃ s s', (machine envelopeLayout 1).Reaches (fun s action => careful s action = true)
        (initial (Store.put ∅ [1] (.envelope ⟨⟨5, 2⟩, [4]⟩)) 3) s ∧
      step envelopeLayout 1 (.stepCas true 4) s = some s' ∧
      s'.finished = s.finished ++ [(⟨[], [⟨[1], some [7]⟩]⟩, .committed ⟨9, 1⟩)] ∧
      storedAt s.db [1] = (⟨8, 3⟩ : Stamp) ∧ storedAt s.db [1] < (⟨9, 1⟩ : Stamp) ∧
      ∀ key, storedAt (Store.put ∅ [1] (.envelope ⟨⟨5, 2⟩, [4]⟩)) key ≤ storedAt s.db key := by
  obtain ⟨s, s', reached, stepped, reported, stored⟩ :=
    (machine envelopeLayout 1).exists_step_of_run (fun s action => careful s action = true)
      (List.flatten [[.call ⟨[], [⟨[1], some [7]⟩]⟩, .lockCas 0],
        List.replicate 3 (.stepCas true 4), [.lockApply [([1], .envelope ⟨⟨8, 3⟩, [6]⟩)]],
        List.replicate 6 (.stepApply true), List.replicate 5 (.stepCas true 4)])
      (.stepCas true 4)
      (initial (Store.put ∅ [1] (.envelope ⟨⟨5, 2⟩, [4]⟩)) 3)
      (fun s s' =>
        s'.finished = s.finished ++ [(⟨[], [⟨[1], some [7]⟩]⟩, .committed ⟨9, 1⟩)] ∧
        storedAt s.db [1] = (⟨8, 3⟩ : Stamp))
      (by decide)
  rw [machine_step] at stepped
  obtain ⟨raised, exceeds⟩ := stamps_never_decrease .refl reached
  have above := exceeds stepped reported ⟨[1], some [7]⟩ (List.mem_singleton.mpr rfl)
  exact ⟨s, s', reached, stepped, reported, stored, above.1, raised⟩

/-- Stored stamps go down in three ways. An apply that has won its compare puts its stamp
over the higher one of a commit; a commit that has drawn its stamp puts it over the higher
one of an apply; and at the ceiling of the clock a commit cannot exceed what it has
observed. -/
theorem stored_stamp_decreases :
    (∃ s s', (machine envelopeLayout 1).Reaches anyAction
        (initial (Store.put ∅ [1] (.envelope ⟨⟨5, 2⟩, [4]⟩)) 5) s ∧
      step envelopeLayout 1 (.stepApply true) s = some s' ∧
      storedAt s'.db [1] < storedAt s.db [1]) ∧
    (∃ s s', (machine envelopeLayout 1).Reaches anyAction
        (initial (Store.put ∅ [1] (.envelope ⟨⟨5, 2⟩, [4]⟩)) 5) s ∧
      step envelopeLayout 1 (.stepCas true 4) s = some s' ∧
      storedAt s'.db [1] < storedAt s.db [1]) ∧
    (∃ s s', (machine envelopeLayout 1).Reaches anyAction
        (initial (Store.put ∅ [1] (.envelope ⟨⟨maxStamp, 2⟩, [4]⟩)) 5) s ∧
      step envelopeLayout 1 (.stepCas true 4) s = some s' ∧
      storedAt s'.db [1] < storedAt s.db [1]) := by
  refine ⟨?_, ?_, ?_⟩
  · exact (machine envelopeLayout 1).exists_step_of_run anyAction
      (List.flatten [[.call ⟨[], [⟨[1], some [7]⟩]⟩, .lockApply [([1], .envelope ⟨⟨6, 3⟩, [6]⟩)]],
        List.replicate 5 (.stepApply true), [.lockCas 0], List.replicate 9 (.stepCas true 4)])
      (.stepApply true) _ (fun s s' => storedAt s'.db [1] < storedAt s.db [1]) (by decide)
  · exact (machine envelopeLayout 1).exists_step_of_run anyAction
      (List.flatten [[.call ⟨[], [⟨[1], some [7]⟩]⟩, .lockCas 0],
        List.replicate 8 (.stepCas true 4), [.lockApply [([1], .envelope ⟨⟨9, 3⟩, [6]⟩)]],
        List.replicate 6 (.stepApply true)])
      (.stepCas true 4) _ (fun s s' => storedAt s'.db [1] < storedAt s.db [1]) (by decide)
  · exact (machine envelopeLayout 1).exists_step_of_run anyAction
      (List.flatten [[.call ⟨[], [⟨[1], some [7]⟩]⟩, .lockCas 0],
        List.replicate 8 (.stepCas true 4)])
      (.stepCas true 4) _ (fun s s' => storedAt s'.db [1] < storedAt s.db [1]) (by decide)

end Shale.Position
