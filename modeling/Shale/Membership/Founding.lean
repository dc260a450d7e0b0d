import Shale.Membership.Collection

/-!
# Founders and joiners

A `Start` decides whether it founds or joins from the rows it replaces. Its outcome stays with
the call from that write to its return, so what it returns tells exactly whether there were
incumbents in the document at the write.
-/

namespace Shale.Membership

open Machine

section Outcome

variable {Version : Type} {phase next : Phase Version} {th : Thread} {boot : Bootstrap}

def Phase.outcome : Phase Version → Option Bootstrap
  | .bootstrapped boot _ _ | .finishing boot | .returned (.bootstrapped boot) => some boot
  | .observing boot _ _ | .collecting boot _ _ _ => boot
  | _ => none

theorem outcome_afterPass (boot : Option Bootstrap) :
    (afterPass boot : Phase Version).outcome = boot := by cases boot <;> rfl

theorem outcome_finish_error (th : Thread) (message : String) :
    (finish th (.error message) : Phase Version).outcome = none := by cases th <;> rfl

theorem outcome_conflict (decided : (phase.conflict th).outcome = some boot) :
    phase.outcome = some boot := by
  unfold Phase.conflict at decided
  split at decided
  · cases decided
  · unfold retryBoot at decided
    split at decided <;> cases decided
  · rwa [outcome_afterPass] at decided
  · unfold retryMutate at decided
    split at decided
    · rw [outcome_finish_error] at decided
      cases decided
    · cases decided
  · cases decided

theorem outcome_failed {reason : String} (goes : phase.failed th reason = some next)
    (decided : next.outcome = some boot) : phase.outcome = some boot := by
  unfold Phase.failed at goes
  split at goes <;> cases goes
  · cases decided
  · cases decided
  · cases decided
  · rwa [outcome_afterPass] at decided
  · cases decided
  · rw [outcome_finish_error] at decided
    cases decided
  · rw [outcome_finish_error] at decided
    cases decided

theorem outcome_got {read : Option (Document × Version)} (goes : phase.got read = some next) :
    next.outcome = none := by
  unfold Phase.got at goes
  split at goes
  · split at goes <;> cases goes
    · unfold retryBoot
      split <;> rfl
    · rfl
  · split at goes <;> cases goes <;> rfl
  · cases goes
    rfl
  · cases goes

theorem outcome_local {cfg : Config} {pid : Nat} {s : State Version} {o : Shared}
    (goes : Local cfg pid s th phase o next) (decided : next.outcome = some boot) :
    phase.outcome = some boot := by
  cases goes with
  | booted other d ver => exact decided
  | observed other d ver goes =>
    rcases goes with rfl | rfl
    · rwa [outcome_afterPass] at decided
    · exact decided
  | finished other => exact decided
  | recorded call want goes => rcases goes with ⟨rfl, -⟩ | rfl <;> cases decided
  | waited idle goes => rcases goes with rfl | ⟨rfl, -⟩ <;> cases decided
  | _ => cases decided

theorem outcome_won {change : Change} {data : Document} {ver : Version}
    (writes : phase.pending = some change) (decided : (phase.won data ver).outcome = some boot) :
    phase.outcome = some boot ∨ (∃ inc, change = .boot inc) ∧ boot = bootOf phase.rows := by
  cases phase with
  | bootPut left inc | bootSet left inc cur ver =>
    cases decided
    exact .inr ⟨⟨inc, (Option.some.inj writes).symm⟩, rfl⟩
  | collecting other expired d ver =>
    rw [show (Phase.collecting other expired d ver).won data _ = afterPass other from rfl,
      outcome_afterPass] at decided
    exact .inl decided
  | writing left base change => cases change <;> cases decided
  | _ => cases writes

end Outcome

section Run

variable {Version : Type} [DecidableEq Version] {vs : Versions Document Version}
  {cfgs : Nat → Config} {s s' : State Version} {pid : Nat} {boot : Bootstrap}

structure Wins (vs : Versions Document Version) (cfgs : Nat → Config) (pid : Nat)
    (boot : Bootstrap) (s s' : State Version) : Prop where
  stepped : (machine vs cfgs).step ((pid, .start), .access) s = some s'
  wrote : ∃ inc, (s.phase (pid, .start)).pending = some (.boot inc) ∧
    s'.object.document = s.object.document.write
      ((Change.boot inc).apply (cfgs pid) s.object.rows).encode
  outcome : boot = bootOf s.object.rows

theorem outcome_of_moved {o : Shared} {next : Phase Version} {event : Event}
    (own : Holds vs (pid, .start) s.object (s.phase (pid, .start)))
    (moved : program vs cfgs (pid, .start) event s = some (o, next))
    (decided : next.outcome = some boot) :
    event ≠ .call ∧ (s.phase (pid, .start)).outcome = some boot ∨
      event = .access ∧ boot = bootOf s.object.rows ∧
        ∃ inc, (s.phase (pid, .start)).pending = some (.boot inc) ∧
          o.document = s.object.document.write
            ((Change.boot inc).apply (cfgs pid) s.object.rows).encode := by
  cases of_program moved with
  | called ready => cases decided
  | wrote writes stored =>
    rcases outcome_won writes decided with before | ⟨⟨inc, rfl⟩, won⟩
    · exact .inl ⟨by simp, before⟩
    · obtain ⟨same, rfl⟩ := own.stored stored
      exact .inr ⟨rfl, same ▸ won, inc, writes, rfl⟩
  | lost writes stored goes | failed goes => exact .inl ⟨by simp, outcome_failed goes decided⟩
  | conflicted writes => exact .inl ⟨by simp, outcome_conflict decided⟩
  | got quiet goes =>
    rw [outcome_got goes] at decided
    cases decided
  | here quiet goes => exact .inl ⟨by simp, outcome_local goes decided⟩

theorem exists_wins (reached : (machine vs cfgs).Reaches anyAction initial s)
    (decided : (s.phase (pid, .start)).outcome = some boot) :
    ∃ before after, (machine vs cfgs).Reaches anyAction initial before ∧
      Wins vs cfgs pid boot before after ∧
      (machine vs cfgs).Reaches (fun _ action => action ≠ ((pid, .start), .call)) after s := by
  induction reached with
  | refl => cases decided
  | @tail mid dst action reached permitted stepped ih =>
    obtain ⟨⟨other, th⟩, event⟩ := action
    obtain ⟨o, next, moved, rfl⟩ := Threads.of_step stepped
    by_cases same : (pid, Thread.start) = (other, th)
    · cases same
      simp only [Function.update_self] at decided
      rcases outcome_of_moved ((holds_of_reaches reached).2 _) moved decided with
        ⟨going, earlier⟩ | ⟨rfl, won, inc, writes, written⟩
      · obtain ⟨before, after, first, wins, later⟩ := ih earlier
        exact ⟨before, after, first, wins, later.tail (by simpa using going) stepped⟩
      · exact ⟨mid, _, reached, ⟨stepped, ⟨inc, writes, written⟩, won⟩, .refl⟩
    · simp only [Function.update_of_ne same] at decided
      obtain ⟨before, after, first, wins, later⟩ := ih decided
      refine ⟨before, after, first, wins, later.tail (fun equal => same ?_) stepped⟩
      exact (Prod.mk.inj equal).1.symm

theorem rows_write {o o' : Shared} {d : Document} (written : o'.document = o.document.write d) :
    o'.rows = d := by
  rw [Shared.rows, written, CondObject.current_write, Option.getD_some]

theorem rows_with_write (o : Shared) (d : Document) :
    ({ o with document := o.document.write d } : Shared).rows = d :=
  rows_write rfl

/-- What a `Start` returns: it has founded exactly if the document held no row immediately before
its own write, and its row joins exactly if it has joined and asked for it. -/
theorem start_founded_iff (reached : (machine vs cfgs).Reaches anyAction initial s)
    (returned : s.phase (pid, .start) = .returned (.bootstrapped boot)) :
    ∃ before after, (machine vs cfgs).Reaches anyAction initial before ∧
      Wins vs cfgs pid boot before after ∧
      (machine vs cfgs).Reaches (fun _ action => action ≠ ((pid, .start), .call)) after s ∧
      (boot = .founded ↔ before.object.rows = []) ∧
      ∃ row, after.object.rows.find (cfgs pid).self.id = some row ∧
        (row.roles.has .joining = true ↔
          boot = .joined ∧ (cfgs pid).initialRoles.has .joining = true) := by
  obtain ⟨before, after, first, wins, later⟩ := exists_wins reached (by rw [returned]; rfl)
  refine ⟨before, after, first, wins, later, ?_, ?_⟩
  · rw [wins.outcome, bootOf]
    split <;> simp_all
  · obtain ⟨inc, -, written⟩ := wins.wrote
    obtain ⟨sound, -⟩ := holds_of_reaches first
    have unique : ((Change.boot inc).apply (cfgs pid) before.object.rows).Unique :=
      Change.unique_apply sound.current_unique _
    refine ⟨before.object.rows.upserted (bootRow (cfgs pid) before.object.rows inc), ?_, ?_⟩
    · rw [rows_write written, unique.find_encode, Change.find_apply_self sound.current_unique]
      rfl
    · rw [Document.upserted_roles, bootRow_roles, ← wins.outcome]
      cases boot with
      | founded => simp [bootRoles, Role.has_without]
      | joined => simp [bootRoles]

theorem start_founded_iff_joined :
    ∃ s : State Nat, (machine (.counted _) twoNodes).Reaches anyAction initial s ∧
      ((s.object.rows.map fun row => (row.id, row.roles)) = [("a", 0), ("b", .joining)] ∧
        s.phase (1, .start) = .returned (.bootstrapped .joined)) ∧
      ∃ before after, Wins (.counted _) twoNodes 1 .joined before after ∧
        before.object.rows ≠ [] := by
  obtain ⟨s, reached, shown⟩ := exists_reaches_of_run
    (machine (.counted _) twoNodes) anyAction
    (callOf (0, .start) 5 ++ callOf (1, .start) 7) initial
    (fun s => (s.object.rows.map fun row => (row.id, row.roles)) = [("a", 0), ("b", .joining)] ∧
      s.phase (1, .start) = .returned (.bootstrapped .joined))
    (by decide)
  obtain ⟨before, after, -, wins, -, founded, -⟩ := start_founded_iff reached shown.2
  exact ⟨s, reached, shown, before, after, wins, fun empty => by simpa using founded.mpr empty⟩

end Run

end Shale.Membership
