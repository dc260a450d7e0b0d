import Shale.Foundation.Locking

/-!
# The locks of the write path

One node's threads on the write path as lock programs: the owner's `CommitCASApply`, a replica's
apply, `purgeOneTombstone` and `finalizeParent`. They take the write pause of a unit, `applyMu` and
`casCommitMu` in different orders: a commit takes `casCommitMu` and then its unit's pause, a purge
takes the pause, then `applyMu`, then `casCommitMu`.
-/

namespace Shale.WriteLocks

open Locking

inductive Lock where
  | pause (unit : Nat)
  | applyMu
  | casCommitMu
deriving DecidableEq

/-- The points of the four paths. A replica's apply has a unit if it goes through
`localWriteBackendForKey` or to a parent slot in a split, and takes no pause otherwise. -/
inductive Pc where
  | casLock (unit : Nat)
  | casPause (unit : Nat)
  | casCommit (unit : Nat)
  | casUnlock
  | applyPause (unit : Nat)
  | applyResolve (unit : Option Nat)
  | applyLock (unit : Option Nat)
  | applyStore (unit : Option Nat)
  | applyLeave (unit : Option Nat)
  | purgePause (unit : Nat)
  | purgeApplyLock (unit : Nat)
  | purgeCasLock (unit : Nat)
  | purgeDelete (unit : Nat)
  | purgeApplyUnlock (unit : Nat)
  | purgeLeave (unit : Nat)
  | finalizePause (unit : Nat)
  | finalizeCopy (unit : Nat)
  | copyLock (unit : Nat)
  | copyStore (unit : Nat)
  | finalizeRetire (unit : Nat)
  | returned
deriving DecidableEq

def entry : Pc → Bool
  | .casLock _ | .applyPause _ | .applyResolve none | .purgePause _ | .finalizePause _ => true
  | _ => false

def code : Pc → Instr Lock Pc
  | .casLock unit => .acquire .casCommitMu .write (.casPause unit)
  | .casPause unit => .acquire (.pause unit) .read (.casCommit unit)
  | .casCommit unit => .release (.pause unit) .read .casUnlock
  | .casUnlock => .release .casCommitMu .write .returned
  | .applyPause unit => .acquire (.pause unit) .read (.applyResolve (some unit))
  -- a position that is not mounted refuses before the apply
  | .applyResolve unit => .branch [.applyLock unit, .applyLeave unit]
  | .applyLock unit => .acquire .applyMu .write (.applyStore unit)
  | .applyStore unit => .release .applyMu .write (.applyLeave unit)
  | .applyLeave (some unit) => .release (.pause unit) .read .returned
  | .applyLeave none => .branch [.returned]
  | .purgePause unit => .acquire (.pause unit) .read (.purgeApplyLock unit)
  | .purgeApplyLock unit => .acquire .applyMu .write (.purgeCasLock unit)
  | .purgeCasLock unit => .acquire .casCommitMu .write (.purgeDelete unit)
  | .purgeDelete unit => .release .casCommitMu .write (.purgeApplyUnlock unit)
  | .purgeApplyUnlock unit => .release .applyMu .write (.purgeLeave unit)
  | .purgeLeave unit => .release (.pause unit) .read .returned
  | .finalizePause unit => .acquire (.pause unit) .write (.finalizeCopy unit)
  -- one apply into a child for each key that the final copy finds, none at one replica
  | .finalizeCopy unit => .branch [.copyLock unit, .finalizeRetire unit]
  | .copyLock unit => .acquire .applyMu .write (.copyStore unit)
  | .copyStore unit => .release .applyMu .write (.finalizeCopy unit)
  | .finalizeRetire unit => .release (.pause unit) .write .returned
  | .returned => .branch []

def program : Program Lock Pc := ⟨entry, code⟩

def readPause : Option Nat → List (Lock × Mode)
  | none => []
  | some unit => [(.pause unit, .read)]

def locks : Pc → List (Lock × Mode)
  | .casPause _ | .casUnlock => [(.casCommitMu, .write)]
  | .casCommit unit => [(.pause unit, .read), (.casCommitMu, .write)]
  | .applyResolve unit | .applyLock unit | .applyLeave unit => readPause unit
  | .applyStore unit => (.applyMu, .write) :: readPause unit
  | .purgeApplyLock unit | .purgeLeave unit => [(.pause unit, .read)]
  | .purgeCasLock unit | .purgeApplyUnlock unit => [(.applyMu, .write), (.pause unit, .read)]
  | .purgeDelete unit => [(.casCommitMu, .write), (.applyMu, .write), (.pause unit, .read)]
  | .finalizeCopy unit | .copyLock unit | .finalizeRetire unit => [(.pause unit, .write)]
  | .copyStore unit => [(.applyMu, .write), (.pause unit, .write)]
  | .casLock _ | .applyPause _ | .purgePause _ | .finalizePause _ | .returned => []

theorem locks_annotation : Annotation program locks where
  entry := by
    intro pc starts
    cases pc with
    | applyResolve unit => cases unit <;> first | rfl | cases starts
    | _ => first | rfl | cases starts
  acquire := by
    intro pc lock mode next at_
    cases pc with
    | applyLeave unit => cases unit <;> cases at_
    | _ => cases at_ <;> rfl
  release := by
    intro pc lock mode next at_
    cases pc with
    | applyLeave unit => cases unit <;> cases at_; simp [locks, readPause]
    | _ => cases at_ <;> simp [locks]
  branch := by
    intro pc choices at_
    cases pc with
    | applyLeave unit => cases unit <;> cases at_; simp [locks, readPause]
    | _ => cases at_ <;> simp [locks]

abbrev Thread := Locking.Thread Lock Pc

abbrev State := Locking.State Lock Pc

def atPurgeCasLock : Pc → Bool
  | .purgeCasLock _ => true
  | _ => false

def atCasPause : Pc → Bool
  | .casPause _ => true
  | _ => false

def rank (t : Thread) : Nat :=
  match t.pc with
  | .purgeCasLock _ => 0
  | .applyLock _ | .purgeApplyLock _ | .copyLock _ => 1
  | .finalizePause _ => if t.status = .announced then 2 else 3
  | .casLock _ => 4
  | _ => 3

section Rank

variable {t u v : Thread} {lock : Lock} {mode : Mode}

theorem rank_of_wants_pause {unit : Nat} (wants : t.wants program = some (.pause unit, mode)) :
    2 ≤ rank t ∧ (t.status ≠ .announced → rank t = 3) := by
  obtain ⟨pc, held, status⟩ := t
  cases pc with
  | applyLeave unit => cases unit <;> cases wants
  | finalizePause unit => by_cases told : status = .announced <;> simp [rank, told]
  | _ => cases wants <;> simp [rank]

theorem rank_of_announced {unit : Nat} (wants : t.wants program = some (.pause unit, .write))
    (announced : t.status = .announced) : rank t = 2 := by
  obtain ⟨pc, held, status⟩ := t
  cases pc with
  | applyLeave unit => cases unit <;> cases wants
  | finalizePause unit => exact if_pos announced
  | _ => cases wants

theorem rank_of_wants_applyMu (wants : t.wants program = some (.applyMu, mode)) : rank t = 1 := by
  obtain ⟨pc, held, status⟩ := t
  cases pc with
  | applyLeave unit => cases unit <;> cases wants
  | _ => cases wants <;> rfl

theorem rank_of_wants_casCommitMu (wants : t.wants program = some (.casCommitMu, mode)) :
    rank t = 4 ∨ atPurgeCasLock t.pc = true := by
  obtain ⟨pc, held, status⟩ := t
  cases pc with
  | casLock unit => exact .inl rfl
  | purgeCasLock unit => exact .inr rfl
  | applyLeave unit => cases unit <;> cases wants
  | _ => cases wants

theorem waiting_writer (wants : t.wants program ≠ none) (held : (lock, .write) ∈ locks t.pc) :
    lock = .casCommitMu ∧ atCasPause t.pc = true ∧ rank t = 3 ∨ lock = .applyMu ∧ rank t = 0 ∨
      ∃ unit, lock = .pause unit ∧ rank t = 1 := by
  obtain ⟨pc, _, status⟩ := t
  cases pc with
  | casPause unit => exact .inl ⟨by simpa [locks] using held, rfl, rfl⟩
  | purgeCasLock unit => exact .inr (.inl ⟨by simpa [locks] using held, rfl⟩)
  | copyLock unit => exact .inr (.inr ⟨unit, by simpa [locks] using held, rfl⟩)
  | applyLock unit => cases unit <;> simp [locks, readPause] at held
  | applyLeave unit => cases unit <;> exact absurd rfl wants
  | _ => first | exact absurd rfl wants | simp [locks] at held

theorem waiting_reader (wants : t.wants program ≠ none) (held : (lock, .read) ∈ locks t.pc) :
    rank t ≤ 1 := by
  obtain ⟨pc, _, status⟩ := t
  cases pc with
  | applyLeave unit => cases unit <;> exact absurd rfl wants
  | applyLock unit => exact le_rfl
  | purgeApplyLock unit => exact le_rfl
  | purgeCasLock unit => exact Nat.zero_le 1
  | _ => first | exact absurd rfl wants | simp [locks] at held

theorem pause_of_read {pc : Pc} (held : (lock, .read) ∈ locks pc) : ∃ unit, lock = .pause unit := by
  have of_readPause {unit : Option Nat} (held : (lock, .read) ∈ readPause unit) :
      ∃ unit, lock = .pause unit := by
    cases unit <;> simp_all [readPause]
  cases pc with
  | applyResolve unit | applyLock unit | applyLeave unit => exact of_readPause held
  | applyStore unit => exact of_readPause (by simpa [locks] using held)
  | _ => simp_all [locks]

theorem rank_falls (heldU : u.held = locks u.pc) (heldV : v.held = locks v.pc)
    (waits : t.WaitsFor program u) (blocked : u.WaitsFor program v) :
    rank u < rank t ∨ atPurgeCasLock t.pc = true ∧ atCasPause u.pc = true := by
  obtain ⟨lock, mode, wants, held⟩ := waits
  obtain ⟨lock', mode', wants', held'⟩ := blocked
  have waiting : u.wants program ≠ none := by simp [wants']
  rcases held with ⟨-, reads⟩ | ⟨status, writes | ⟨announced, wanted⟩⟩
  · -- a writer waits for a reader
    rw [Locking.Thread.Reads, heldU] at reads
    obtain ⟨unit, rfl⟩ := pause_of_read reads
    have high := (rank_of_wants_pause wants).1
    have low := waiting_reader waiting reads
    exact .inl (by omega)
  · rw [heldU] at writes
    rcases waiting_writer waiting writes with ⟨rfl, paused, three⟩ | ⟨rfl, zero⟩ | ⟨unit, rfl, one⟩
    · exact (rank_of_wants_casCommitMu wants).imp (fun four => by omega)
        fun purge => ⟨purge, paused⟩
    · have one := rank_of_wants_applyMu wants
      exact .inl (by omega)
    · have quiet : t.status ≠ .announced := by rcases status with h | h <;> simp [h]
      have three := (rank_of_wants_pause wants).2 quiet
      exact .inl (by omega)
  · -- the writer that is waited for waits for a reader itself
    obtain rfl := congrArg Prod.fst (Option.some.inj (wanted.symm.trans wants'))
    rcases held' with ⟨-, reads⟩ | ⟨status', -⟩
    · rw [Locking.Thread.Reads, heldV] at reads
      obtain ⟨unit, rfl⟩ := pause_of_read reads
      have quiet : t.status ≠ .announced := by rcases status with h | h <;> simp [h]
      have three := (rank_of_wants_pause wants).2 quiet
      have two := rank_of_announced wanted announced
      exact .inl (by omega)
    · simp [announced] at status'

end Rank

/-- A purge does not ask for `casCommitMu` while a commit waits for its unit's pause, and a
commit does not meet a writer at its unit's pause while a purge waits for `casCommitMu`. -/
def orderly (s : State) : Action Pc → Bool
  | .request i =>
    match s[i]?.map Locking.Thread.pc with
    | some (.purgeCasLock _) => !decide (WaitsAt atCasPause s)
    | some (.casPause unit) =>
      !(decide (∃ w ∈ s, w.Writes program (.pause unit)) && decide (WaitsAt atPurgeCasLock s))
    | _ => true
  | _ => true

/-- Each thread holds what its point says, and no purge waits for `casCommitMu` while a
commit waits for a pause. -/
structure Inv (s : State) : Prop where
  annotated : Annotated locks s
  ordered : ¬ (WaitsAt atPurgeCasLock s ∧ WaitsAt atCasPause s)

theorem of_atPurgeCasLock {pc : Pc} (at_ : atPurgeCasLock pc = true) :
    ∃ unit, pc = .purgeCasLock unit := by
  cases pc <;> first | exact ⟨_, rfl⟩ | cases at_

theorem of_atCasPause {pc : Pc} (at_ : atCasPause pc = true) : ∃ unit, pc = .casPause unit := by
  cases pc <;> first | exact ⟨_, rfl⟩ | cases at_

theorem Inv.step {s s' : State} {action : Action Pc} (inv : Inv s)
    (permitted : orderly s action = true)
    (stepped : Locking.step program action s = some s') : Inv s' where
  annotated := locks_annotation.step inv.annotated stepped
  ordered := by
    rintro ⟨purge, commit⟩
    rcases waitsAt_of_step stepped purge with purge | ⟨i, t, rfl, here, atPurge, -⟩
    · rcases waitsAt_of_step stepped commit with commit | ⟨i, t, rfl, here, atCas, met⟩
      · exact inv.ordered ⟨purge, commit⟩
      · obtain ⟨unit, pc⟩ := of_atCasPause atCas
        have wants : t.wants program = some (.pause unit, .read) := by
          simp [Locking.Thread.wants, program, code, pc]
        have writer := met _ wants
        simp [orderly, here, pc, writer, purge] at permitted
    · obtain ⟨unit, pc⟩ := of_atPurgeCasLock atPurge
      rcases waitsAt_of_step stepped commit with commit | ⟨j, u, same, there, atCas, -⟩
      · simp [orderly, here, pc, commit] at permitted
      · obtain rfl := Action.request.inj same
        cases here.symm.trans there
        rw [pc] at atCas
        cases atCas

theorem Inv.not_deadlock {s : State} (inv : Inv s) : ¬ Deadlock program s := by
  refine not_deadlock_of_rank program rank ?_
  intro t memberT u memberU v memberV waits blocked
  rcases rank_falls (inv.annotated u memberU) (inv.annotated v memberV) waits blocked with
    falls | ⟨purge, commit⟩
  · exact falls
  · exact absurd ⟨⟨t, memberT, purge, waits.status_ne⟩, ⟨u, memberU, commit, blocked.status_ne⟩⟩
      inv.ordered

theorem initial_inv : Inv ([] : State) where
  annotated := fun _ member => by cases member
  ordered := fun waiting => by
    obtain ⟨⟨_, member, _⟩, _⟩ := waiting
    cases member

/-- **The write path does not deadlock.** In every run of `orderly` steps of any number of
threads on any units, no set of threads each waits for a lock or a reader slot that only
its members can give back. -/
theorem write_path_never_deadlocks {s : State}
    (reached : (machine program).Reaches (fun s action => orderly s action = true) [] s) :
    ¬ Deadlock program s :=
  (reached.invariant initial_inv Inv.step).not_deadlock

theorem commit_waits_behind_finalize :
    ∃ s : State, (machine program).Reaches (fun s action => orderly s action = true) [] s ∧
      s.map (fun t => (t.pc, t.status)) =
        [(.casPause 0, .parked), (.finalizePause 0, .announced), (.purgeApplyLock 0, .queued),
          (.applyStore none, .ready)] ∧ ¬ Deadlock program s := by
  obtain ⟨s, reached, ended⟩ := (machine program).exists_reaches_of_run
    (fun s action => orderly s action = true)
    [.spawn (.casLock 0), .spawn (.finalizePause 0), .spawn (.purgePause 0),
      .spawn (.applyResolve none), .branch 3 (.applyLock none), .request 3, .announce 3, .enter 3,
      .request 2, .request 2, .request 0, .announce 0, .enter 0, .request 1, .announce 1,
      .request 0]
    [] (fun s => s.map (fun t => (t.pc, t.status)) =
      [(.casPause 0, .parked), (.finalizePause 0, .announced), (.purgeApplyLock 0, .queued),
        (.applyStore none, .ready)]) (by decide)
  exact ⟨s, reached, ended, write_path_never_deadlocks reached⟩

def deadlocked : State :=
  [⟨.casPause 0, [(.casCommitMu, .write)], .parked⟩,
    ⟨.purgeCasLock 0, [(.applyMu, .write), (.pause 0, .read)], .queued⟩,
    ⟨.finalizePause 0, [], .announced⟩]

/-- A purge has the pause of a unit and `applyMu`, a commit has `casCommitMu`. A
`finalizeParent` of the unit announces itself and waits for the purge, the purge waits for
the commit, and the commit waits behind the `finalizeParent`. -/
theorem purge_commit_finalize_deadlock :
    (machine program).Reaches Machine.anyAction [] deadlocked ∧ Deadlock program deadlocked := by
  constructor
  · exact Machine.reaches_of_run (show (machine program).run Machine.anyAction
      [.spawn (.casLock 0), .spawn (.purgePause 0), .spawn (.finalizePause 0),
        .request 1, .request 1, .announce 1, .enter 1, .request 0, .announce 0, .enter 0,
        .request 2, .announce 2, .request 1, .request 0] [] = some deadlocked by decide)
  · refine ⟨{0, 1, 2}, ⟨0, by simp⟩, ?_⟩
    rintro i (rfl | rfl | rfl)
    · exact ⟨2, by simp, _, _, rfl, rfl, .pause 0, .read, rfl,
        .inr ⟨.inr rfl, .inr ⟨rfl, rfl⟩⟩⟩
    · exact ⟨0, by simp, _, _, rfl, rfl, .casCommitMu, .write, rfl,
        .inr ⟨.inl rfl, .inl (by decide)⟩⟩
    · exact ⟨1, by simp, _, _, rfl, rfl, .pause 0, .write, rfl,
        .inl ⟨rfl, by simp [Locking.Thread.Reads]⟩⟩

end Shale.WriteLocks
