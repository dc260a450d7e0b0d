import Shale.Transaction.Position

/-!
# What an open commit has done

The invariant that every commit in its critical section keeps, whatever the other writers
do: the checks that have passed and those still to make are its read-set, its overlay holds
the operations it has buffered, and each check that has passed still matches the database
unless somebody else has written its key since it was read.
-/

namespace Shale.Position

open Function

variable {Value : Type} {layout : Layout Value} {node : Nat}

namespace Layout

variable (layout : Layout Value)

def buffer (stamp : Stamp) (ops : List WriteOp) : MemoryTx Value :=
  ops.foldl (fun tx op => tx.write op.key (layout.entry stamp op)) MemoryTx.begin

def execute (stamp : Stamp) (ops : List WriteOp) (contents : Bytes → Option Value) :
    Bytes → Option Value :=
  ops.foldl (fun contents op => update contents op.key (layout.entry stamp op)) contents

def Matches (contents : Bytes → Option Value) (check : ReadCheck) : Prop :=
  (layout.casReadPayload (contents check.key)).map Prod.fst = some check.expected

instance (contents : Bytes → Option Value) (check : ReadCheck) :
    Decidable (layout.Matches contents check) :=
  inferInstanceAs (Decidable (_ = _))

section

variable (stamp : Stamp) (ops : List WriteOp)
include stamp ops

theorem buffer_concat (op : WriteOp) :
    layout.buffer stamp (ops ++ [op]) =
      (layout.buffer stamp ops).write op.key (layout.entry stamp op) := by
  simp [buffer]

theorem get_buffer (parent : Store Value) :
    (layout.buffer stamp ops).get parent = layout.execute stamp ops parent.get := by
  induction ops using List.reverseRecOn with
  | nil =>
    funext key
    exact MemoryTx.get_begin
  | append_singleton ops op ih =>
    funext key
    rw [buffer_concat, execute, List.foldl_concat, ← execute, ← ih]
    by_cases same : key = op.key
    · rw [same, MemoryTx.get_write_self, update_self]
    · rw [MemoryTx.get_write_of_ne same, update_of_ne same]

theorem execute_of_notMem {key : Bytes} (absent : key ∉ ops.map WriteOp.key)
    (contents : Bytes → Option Value) :
    layout.execute stamp ops contents key = contents key := by
  induction ops generalizing contents with
  | nil => rfl
  | cons op rest ih =>
    simp only [List.map_cons, List.mem_cons, not_or] at absent
    rw [execute, List.foldl_cons, ← execute, ih absent.2, update_of_ne absent.1]

end

end Layout

namespace CasTx

variable (tx : CasTx Value)

def unchecked : List ReadCheck :=
  match tx.phase with
  | .locked | .begun => tx.call.reads
  | .validating todo => todo
  | .judging check _ _ todo => check :: todo
  | _ => []

/-- The operations still to buffer. -/
def unwritten : List WriteOp :=
  match tx.phase with
  | .writing _ todo => todo
  | _ => tx.call.writes

def stamp : Stamp :=
  match tx.phase with
  | .writing stamp _ => stamp
  | _ => Stamp.zero

/-- The invariant of an open commit over the database and the keys that others have
written. -/
structure Sound (layout : Layout Value) (db : Store Value) (foreign : List Bytes)
    (tx : CasTx Value) : Prop where
  checks : tx.validated.map Prod.fst ++ tx.unchecked = tx.call.reads
  buffered : ∃ done, done ++ tx.unwritten = tx.call.writes ∧
    tx.overlay = layout.buffer tx.stamp done
  passed : ∀ {check since}, (check, since) ∈ tx.validated → since ≤ foreign.length ∧
    (check.key ∉ foreign.drop since → layout.Matches db.get check)
  read : ∀ {check got since todo}, tx.phase = .judging check got since todo →
    since ≤ foreign.length ∧ (check.key ∉ foreign.drop since → got = db.get check.key)

variable {tx} {db db' : Store Value} {foreign : List Bytes}

theorem Sound.overlay_eq_begin (sound : tx.Sound layout db foreign)
    (unwritten : tx.unwritten = tx.call.writes) : tx.overlay = MemoryTx.begin := by
  obtain ⟨done, split, overlay⟩ := sound.buffered
  obtain rfl : done = [] := by simpa [unwritten] using split
  exact overlay

section

variable (sound : tx.Sound layout db foreign)
include sound

theorem Sound.foreignWrite {keys : List Bytes} (untouched : ∀ key ∉ keys, db'.get key = db.get key)
    : tx.Sound layout db' (foreign ++ keys) where
  checks := sound.checks
  buffered := sound.buffered
  passed := by
    intro check since passed
    obtain ⟨early, kept⟩ := sound.passed passed
    refine ⟨by simp only [List.length_append]; omega, fun fresh => ?_⟩
    rw [List.drop_append_of_le_length early, List.mem_append, not_or] at fresh
    have matched := kept fresh.1
    rwa [Layout.Matches, ← untouched check.key fresh.2] at matched
  read := by
    intro check got since todo judging
    obtain ⟨early, kept⟩ := sound.read judging
    refine ⟨by simp only [List.length_append]; omega, fun fresh => ?_⟩
    rw [List.drop_append_of_le_length early, List.mem_append, not_or] at fresh
    rw [untouched check.key fresh.2, kept fresh.1]

theorem Sound.setPhase {phase : CasPhase Value}
    (unchecked : ({ tx with phase } : CasTx Value).unchecked = tx.unchecked)
    (unwritten : tx.unwritten = tx.call.writes)
    (remaining : ({ tx with phase } : CasTx Value).unwritten = tx.call.writes)
    (read : ∀ {check got since todo}, phase = .judging check got since todo →
      since ≤ foreign.length ∧ (check.key ∉ foreign.drop since → got = db.get check.key)) :
    ({ tx with phase } : CasTx Value).Sound layout db foreign where
  checks := unchecked ▸ sound.checks
  buffered := ⟨[], by simpa using remaining, sound.overlay_eq_begin unwritten⟩
  passed := sound.passed
  read := read

variable {stamp : Stamp}

theorem Sound.pass {check : ReadCheck} {got : Option Value} {since : Nat} {todo : List ReadCheck}
    {found : Option Bytes} (judging : tx.phase = .judging check got since todo)
    (payload : layout.casReadPayload got = some (found, stamp)) (same : found = check.expected) :
    ({ tx with
        validated := tx.validated ++ [(check, since)]
        phase := .validating todo } : CasTx Value).Sound layout db foreign where
  checks := by
    have checks := sound.checks
    simp only [unchecked, judging] at checks
    simpa [unchecked] using checks
  buffered :=
    ⟨[], rfl, sound.overlay_eq_begin (by simp only [unwritten, judging])⟩
  passed := by
    intro passed since' mem
    rcases List.mem_append.mp mem with earlier | now
    · exact sound.passed earlier
    · obtain ⟨rfl, rfl⟩ : passed = check ∧ since' = since := by simpa using now
      obtain ⟨early, kept⟩ := sound.read judging
      refine ⟨early, fun fresh => ?_⟩
      rw [Layout.Matches, ← kept fresh, payload, Option.map_some, same]
  read := by simp

theorem Sound.write {op : WriteOp} {todo : List WriteOp}
    (writing : tx.phase = .writing stamp (op :: todo)) :
    ({ tx with
        overlay := tx.overlay.write op.key (layout.entry stamp op)
        phase := .writing stamp todo } : CasTx Value).Sound layout db foreign where
  checks := by
    have checks := sound.checks
    simp only [unchecked, writing] at checks
    exact checks
  buffered := by
    obtain ⟨done, split, overlay⟩ := sound.buffered
    simp only [unwritten, CasTx.stamp, writing] at split overlay
    refine ⟨done ++ [op], by simpa [unwritten] using split, ?_⟩
    simp only [CasTx.stamp, overlay, Layout.buffer_concat]
  passed := sound.passed
  read := by simp

end

theorem Sound.casAdvance {s : State Value} {wall : Nat} {next : CasTx Value}
    (sound : tx.Sound layout s.db s.foreign)
    (continues : (casAdvance layout node wall s tx).committing = some next) :
    next.Sound layout s.db s.foreign := by
  unfold Position.casAdvance at continues
  split at continues
  case h_1 phase | h_2 phase | h_7 phase | h_8 phase | h_9 phase =>
    cases continues
    exact sound.setPhase (by simp [unchecked, phase]) (by simp [unwritten, phase]) rfl (by simp)
  case h_3 check todo phase =>
    cases continues
    have empty := sound.overlay_eq_begin (by simp [unwritten, phase])
    refine sound.setPhase (by simp [unchecked, phase]) (by simp [unwritten, phase]) rfl ?_
    rintro _ _ _ _ ⟨⟩
    exact ⟨le_rfl, fun _ => by rw [empty, MemoryTx.get_begin]⟩
  case h_4 check got since todo phase =>
    split at continues
    case h_1 => cases continues
    case h_2 found stamp payload =>
      split at continues
      case isTrue same =>
        cases continues
        exact sound.pass phase payload same
      case isFalse => cases continues
  case h_5 phase =>
    split at continues <;> cases continues <;>
      exact sound.setPhase (by simp [unchecked, phase]) (by simp [unwritten, phase]) rfl (by simp)
  case h_6 op todo noted phase =>
    repeat' split at continues
    all_goals cases continues
    all_goals
      exact sound.setPhase (by simp [unchecked, phase]) (by simp [unwritten, phase]) rfl (by simp)
  case h_10 stamp op todo phase =>
    cases continues
    exact sound.write phase
  case h_11 => cases continues

end CasTx

def State.committed (s : State Value) : List (CasCall × Stamp) :=
  s.finished.filterMap fun
    | (call, .committed stamp) => some (call, stamp)
    | _ => none

section Effects

variable {s s' : State Value} {tx : CasTx Value} {ok : Bool} {wall : Nat} {action : Action Value}

theorem committed_finish_failed : (s.finish tx .failed).committed = s.committed := by
  simp [State.committed, State.finish]

theorem committed_finish_conflict : (s.finish tx .conflict).committed = s.committed := by
  simp [State.committed, State.finish]

theorem casAdvance_applying : (casAdvance layout node wall s tx).applying = s.applying := by
  unfold casAdvance
  split <;> (try split) <;> (try dsimp only) <;> (try split) <;> rfl

theorem casAdvance_foreign : (casAdvance layout node wall s tx).foreign = s.foreign := by
  unfold casAdvance
  split <;> (try split) <;> (try dsimp only) <;> (try split) <;> rfl

theorem casAdvance_quiet (pending : ∀ stamp, tx.phase ≠ .writing stamp []) :
    (casAdvance layout node wall s tx).db = s.db ∧
      (casAdvance layout node wall s tx).committed = s.committed := by
  unfold casAdvance
  split
  case h_4 =>
    split
    · exact ⟨rfl, committed_finish_failed⟩
    · split
      · exact ⟨rfl, rfl⟩
      · exact ⟨rfl, committed_finish_conflict⟩
  case h_5 => split <;> exact ⟨rfl, rfl⟩
  case h_6 =>
    split
    · split
      · exact ⟨rfl, committed_finish_failed⟩
      · exact ⟨rfl, rfl⟩
    · exact ⟨rfl, rfl⟩
  case h_11 stamp last => exact absurd last (pending stamp)
  all_goals exact ⟨rfl, rfl⟩

theorem casStep_effect (stepped : casStep layout node ok wall s = some s') :
    (∃ tx stamp, s.committing = some tx ∧ tx.phase = .writing stamp [] ∧
        s' = { s.finish tx (.committed stamp) with db := tx.overlay.commit s.db }) ∨
      s'.db = s.db ∧ s'.committed = s.committed := by
  obtain ⟨tx, holder, ⟨rfl, rfl⟩ | ⟨rfl, rfl⟩⟩ := of_casStep stepped
  · by_cases last : ∃ stamp, tx.phase = .writing stamp []
    · obtain ⟨stamp, last⟩ := last
      exact .inl ⟨tx, stamp, holder, last, by simp only [casAdvance, last]⟩
    · exact .inr (casAdvance_quiet (not_exists.mp last))
  · exact .inr ⟨rfl, committed_finish_failed⟩

theorem applyAdvance_committing {tx : ApplyTx Value} :
    (applyAdvance layout s tx).committing = s.committing := by
  unfold applyAdvance
  split <;> (try split) <;> (try split) <;> rfl

theorem applyAdvance_finished {tx : ApplyTx Value} :
    (applyAdvance layout s tx).finished = s.finished := by
  unfold applyAdvance
  split <;> (try split) <;> (try split) <;> rfl

theorem applyStep_finished (stepped : applyStep layout ok s = some s') :
    s'.finished = s.finished := by
  obtain ⟨tx, _, ⟨rfl, rfl⟩ | ⟨rfl, rfl⟩⟩ := of_applyStep stepped
  · exact applyAdvance_finished
  · rfl

end Effects

structure Inv (layout : Layout Value) (s : State Value) : Prop where
  commit : ∀ {tx}, s.committing = some tx → tx.Sound layout s.db s.foreign
  apply : ∀ {tx}, s.applying = some tx → tx.overlay.deletes = []

namespace Inv

variable {s s' : State Value} {ok : Bool} {wall : Nat} {action : Action Value}

theorem initial (db : Store Value) (clock : Nat) : Inv layout (initial db clock) where
  commit := nofun
  apply := nofun

section

variable (inv : Inv layout s)
include inv

theorem lockCas (call : CasCall) (waiting : List CasCall) :
    Inv layout { s with waiting, committing := some ⟨call, .locked, MemoryTx.begin, []⟩ } where
  commit := by
    rintro _ ⟨⟩
    exact ⟨rfl, ⟨[], rfl, rfl⟩, by simp, by simp⟩
  apply := inv.apply

theorem casStep (stepped : casStep layout node ok wall s = some s') : Inv layout s' := by
  obtain ⟨tx, holder, ⟨rfl, rfl⟩ | ⟨rfl, rfl⟩⟩ := of_casStep stepped
  · refine ⟨fun {next} continues => ?_, fun held => inv.apply (casAdvance_applying ▸ held)⟩
    have sound := (inv.commit holder).casAdvance continues
    rwa [casAdvance_foreign, (casAdvance_quiet fun stamp last => ?_).1]
    simp [casAdvance, last, State.finish] at continues
  · exact ⟨nofun, inv.apply⟩

theorem foreignWrite {db : Store Value} {keys : List Bytes} {applying : Option (ApplyTx Value)}
    (untouched : ∀ key ∉ keys, db.get key = s.db.get key)
    (held : ∀ {tx}, applying = some tx → tx.overlay.deletes = []) :
    Inv layout { s with db, applying, foreign := s.foreign ++ keys } where
  commit holder := (inv.commit holder).foreignWrite untouched
  apply := held

variable {tx : ApplyTx Value}

theorem setApply (puts : tx.overlay.deletes = []) :
    Inv layout (s.setApply tx) where
  commit := inv.commit
  apply := by
    rintro _ ⟨⟩
    exact puts

theorem observe (timestamp : Nat) : Inv layout (s.observe timestamp) :=
  ⟨inv.commit, inv.apply⟩

theorem rollback : Inv layout s.rollback := ⟨inv.commit, nofun⟩

theorem applyAdvance (holder : s.applying = some tx) :
    Inv layout (applyAdvance layout s tx) := by
  have puts := inv.apply holder
  unfold Position.applyAdvance
  split
  case h_1 =>
    split
    case h_1 =>
      refine inv.foreignWrite (fun key unwritten => ?_) nofun
      rw [MemoryTx.get_commit, MemoryTx.get_of_notMem (by simp [puts]) unwritten]
    case h_2 =>
      split
      · exact inv.rollback
      · exact inv.setApply puts
  case h_2 | h_4 => exact (inv.observe _).setApply puts
  case h_3 => exact inv.setApply puts
  case h_5 => exact inv.setApply (by simp [MemoryTx.put, puts])

theorem applyStep (stepped : applyStep layout ok s = some s') : Inv layout s' := by
  obtain ⟨tx, holder, ⟨rfl, rfl⟩ | ⟨rfl, rfl⟩⟩ := of_applyStep stepped
  · exact inv.applyAdvance holder
  · exact inv.rollback

theorem step (stepped : step layout node action s = some s') : Inv layout s' := by
  cases action with
  | call call =>
    cases stepped
    exact ⟨inv.commit, inv.apply⟩
  | lockCas i =>
    obtain ⟨call, rfl⟩ := of_lockCas stepped
    exact inv.lockCas call _
  | stepCas ok wall => exact inv.casStep stepped
  | lockApply writes =>
    obtain rfl := of_lockApply stepped
    exact inv.setApply rfl
  | stepApply ok => exact inv.applyStep stepped
  | plain key effect =>
    obtain rfl := of_plain stepped
    exact inv.foreignWrite (fun other fresh => Store.get_write_of_ne (by simpa using fresh))
      inv.apply
  | observe timestamp =>
    cases stepped
    exact inv.observe timestamp

end

theorem of_reaches {allowed : State Value → Action Value → Prop} {db : Store Value} {clock : Nat}
    (reached : (machine layout node).Reaches allowed (Position.initial db clock) s) :
    Inv layout s :=
  reached.invariant (initial db clock) fun inv _ stepped => inv.step stepped

end Inv

end Shale.Position
