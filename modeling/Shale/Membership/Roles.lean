import Shale.Membership.Recognition

/-!
# Concurrent role changes

`SetRole` records the wanted roles and then projects whatever is recorded into the row, in a
closure that is run before the conditional write. A process whose row disagrees with what it has
recorded has a call under way that will write the row or return an error, as long as no write
takes effect that carries roles recorded earlier.
-/

namespace Shale.Membership

open Function (update update_self update_of_ne)

def Change.roles : Change → Option Role
  | .renew roles | .add roles _ | .setRoles roles => some roles
  | .boot _ | .remove | .drop _ => none

section Condition

variable {Version : Type} [DecidableEq Version]

def carriesRecorded (vs : Versions Document Version) (cfgs : Nat → Config) (s : State Version)
    (name : Nat × Thread) : Bool :=
  let phase := s.phase name
  match phase.pending with
  | none => true
  | some change =>
    match s.object.document.attempt vs (phase.data (cfgs name.1) change)
      (phase.base.map Prod.snd) with
    | none => true
    | some _ => change.roles.all fun roles => roles = (s.object.procs name.1).roles

/-- A write of a process that takes effect carries the roles that the process has recorded. -/
def CarriesRecorded (vs : Versions Document Version) (cfgs : Nat → Config) (p : Nat)
    (s : State Version) (action : (Nat × Thread) × Event) : Prop :=
  match action.2 with
  | .access | .lose _ => action.1.1 = p → carriesRecorded vs cfgs s action.1 = true
  | .call | .fail _ => True

instance (vs : Versions Document Version) (cfgs : Nat → Config) (p : Nat) :
    DecidableRel (CarriesRecorded vs cfgs p) := fun _ action =>
  match action with
  | (_, .access) | (_, .lose _) => inferInstanceAs (Decidable (_ → _))
  | (_, .call) | (_, .fail _) => isTrue trivial

def CalledStarted (p : Nat) (s : State Version) (action : (Nat × Thread) × Event) : Prop :=
  match action with
  | ((pid, .setRole _ _), .call) => pid = p → (s.object.procs p).started = true
  | _ => True

instance (p : Nat) :
    DecidableRel (CalledStarted p : State Version → (Nat × Thread) × Event → Prop) :=
  fun _ action =>
    match action with
    | ((_, .setRole _ _), .call) => inferInstanceAs (Decidable (_ → _))
    | ((_, .setRole _ _), .access) | ((_, .setRole _ _), .fail _) | ((_, .setRole _ _), .lose _)
    | ((_, .start), _) | ((_, .renew), _) | ((_, .poll), _) | ((_, .close), _) => isTrue trivial

def RolesCurrent (vs : Versions Document Version) (cfgs : Nat → Config) (p : Nat)
    (s : State Version) (action : (Nat × Thread) × Event) : Prop :=
  CalledStarted p s action ∧ CarriesRecorded vs cfgs p s action

instance (vs : Versions Document Version) (cfgs : Nat → Config) (p : Nat) :
    DecidableRel (RolesCurrent vs cfgs p) :=
  fun _ _ => inferInstanceAs (Decidable (_ ∧ _))

end Condition

section Step

variable {Version : Type} {vs : Versions Document Version} {cfgs : Nat → Config}
  {s s' : State Version} {o : Shared} {phase next : Phase Version} {p pid : Nat} {th : Thread}
  {event : Event} {row : DocRow} {change : Change}

/-- A call of `SetRole` will write the row, or has returned an error; one that is about to run its
closure will write it if it has read a row that disagrees with what is recorded. -/
def Phase.owes (id : String) (recorded : Role) : Phase Version → Prop
  | .reading _ | .writing _ _ _ | .returned (.error _) => True
  | .editing _ base => ∃ row, Document.find ((base.map Prod.fst).getD []) id = some row ∧
      row.roles ≠ recorded
  | _ => False

def wanted (cfgs : Nat → Config) (s : State Version) (p : Nat) : Role :=
  match s.phase (p, .start) with
  | .bootstrapped boot _ _ => bootRoles (cfgs p) boot
  | _ => (s.object.procs p).roles

structure Projects (cfgs : Nat → Config) (p : Nat) (s : State Version) : Prop where
  called : ∀ {call want}, s.phase (p, .setRole call want) ≠ .idle →
    (s.object.procs p).started = true
  settled : (s.object.procs p).started = true ∨ (s.phase (p, .start)).booted = true →
    ∀ {row}, s.object.rows.find (cfgs p).self.id = some row → row.roles = wanted cfgs s p ∨
      ∃ call want, (s.phase (p, .setRole call want)).owes (cfgs p).self.id
        (s.object.procs p).roles

theorem wanted_eq (other : ∀ boot d ver, s.phase (p, .start) ≠ .bootstrapped boot d ver) :
    wanted cfgs s p = (s.object.procs p).roles := by
  unfold wanted
  split
  case h_1 boot d ver same => exact absurd same (other boot d ver)
  case h_2 => rfl

theorem Known.wanted_eq (known : Known vs cfgs p s) (started : (s.object.procs p).started = true) :
    wanted cfgs s p = (s.object.procs p).roles := by
  refine Membership.wanted_eq fun boot d ver same => ?_
  have unstarted := (known.passes (p, .start)).booting rfl (by rw [same]; rfl)
  simp [started] at unstarted

theorem Local.roles {cfg : Config} (goes : Local cfg pid s th phase o next) :
    (o.procs pid).roles = (s.object.procs pid).roles ∨
      (∃ boot d ver, phase = .bootstrapped boot d ver ∧ next = .observing (some boot) d ver ∧
        (o.procs pid).roles = bootRoles cfg boot) ∨
      ∃ call want, th = .setRole call want ∧ phase = .recording ∧
        (next = .reading (casAttempts - 1) ∨ (s.object.procs pid).started = false) := by
  cases goes with
  | booted boot d ver => exact .inr (.inl ⟨boot, d, ver, rfl, rfl, by simp [Shared.setProc]⟩)
  | recorded call want goes =>
    rcases goes with ⟨-, same | unstarted⟩ | reads
    · exact .inl (by simp [Shared.setProc, same])
    · exact .inr (.inr ⟨call, want, rfl, rfl, .inr unstarted⟩)
    · exact .inr (.inr ⟨call, want, rfl, rfl, .inl reads⟩)
  | _ => exact .inl (by simp [Shared.setProc, Shared.mint])

theorem Projects.frame (projects : Projects cfgs p s)
    (started : (s'.object.procs p).started = (s.object.procs p).started)
    (roles : (s'.object.procs p).roles = (s.object.procs p).roles)
    (starts : s'.phase (p, .start) = s.phase (p, .start))
    (calls : ∀ call want, s'.phase (p, .setRole call want) = s.phase (p, .setRole call want))
    (kept : ∀ {row}, s'.object.rows.find (cfgs p).self.id = some row →
      s.object.rows.find (cfgs p).self.id = some row ∨ row.roles = wanted cfgs s p) :
    Projects cfgs p s' := by
  have same : wanted cfgs s' p = wanted cfgs s p := by
    rw [wanted, starts, roles]
    rfl
  refine ⟨fun {call want} active => ?_, fun running row found => ?_⟩
  · rw [calls] at active
    rw [started]
    exact projects.called active
  · simp only [started, starts, same, calls, roles] at running ⊢
    rcases kept found with held | agrees
    · exact projects.settled running held
    · exact .inl agrees

variable {call : Nat} {want : Role} {boot : Bootstrap} {later : CondObject Document}

theorem Projects.setQuiet (projects : Projects cfgs p s)
    (started : (o.procs p).started = (s.object.procs p).started)
    (roles : (o.procs p).roles = (s.object.procs p).roles)
    (active : (s.object.procs p).started = true)
    (kept : ∀ {row}, o.rows.find (cfgs p).self.id = some row →
      row.roles = wanted cfgs s p ∨ s.object.rows.find (cfgs p).self.id = some row ∧
        ((s.phase (p, .setRole call want)).owes (cfgs p).self.id (s.object.procs p).roles →
          next.owes (cfgs p).self.id (s.object.procs p).roles)) :
    Projects cfgs p ⟨o, update s.phase (p, .setRole call want) next⟩ := by
  have starts : update s.phase (p, .setRole call want) next (p, .start) =
      s.phase (p, .start) := update_of_ne (by simp) _ _
  refine ⟨fun _ => started.trans active, fun _ row found => ?_⟩
  have same : wanted cfgs ⟨o, update s.phase (p, .setRole call want) next⟩ p =
      wanted cfgs s p := by
    simp only [wanted, starts, roles]
  simp only [same, roles]
  rcases kept found with agrees | ⟨held, owed⟩
  · exact .inl agrees
  refine (projects.settled (.inl active) held).imp_right fun ⟨other, sought, owes⟩ => ?_
  by_cases mine : (p, Thread.setRole other sought) = (p, .setRole call want)
  · refine ⟨call, want, ?_⟩
    rw [mine] at owes
    rw [update_self]
    exact owed owes
  · refine ⟨other, sought, ?_⟩
    rwa [update_of_ne mine]

theorem Projects.recording (projects : Projects cfgs p s)
    (active : (s.object.procs p).started = true)
    (goes : Local (cfgs p) p s (.setRole call want) .recording o next)
    (here : s.phase (p, .setRole call want) = .recording) :
    Projects cfgs p ⟨o, update s.phase (p, .setRole call want) next⟩ := by
  cases goes with
  | recorded _ _ goes =>
    rcases goes with ⟨rfl, same | unstarted⟩ | rfl
    · refine projects.setQuiet (by simp [Shared.setProc]) (by simp [Shared.setProc, same]) active
        fun found => .inr ⟨found, fun owes => ?_⟩
      rw [here] at owes
      exact owes.elim
    · simp [active] at unstarted
    · -- the call that has recorded the roles owes the write
      refine ⟨fun _ => by simpa [Shared.setProc] using active,
        fun _ row _ => .inr ⟨call, want, ?_⟩⟩
      simp [Phase.owes]

theorem of_pending_setRole (of : phase.Of (.setRole call want))
    (writes : phase.pending = some change) : ∃ roles, change = .setRoles roles := by
  have made := madeBy_of_pending of writes
  cases change with
  | setRoles roles => exact ⟨roles, rfl⟩
  | boot inc | renew roles | add roles inc | remove => cases made
  | drop expired => rcases made with same | same <;> cases same

theorem Projects.setting_here (projects : Projects cfgs p s)
    (active : (s.object.procs p).started = true)
    (of : (s.phase (p, .setRole call want)).Of (.setRole call want))
    (goes : Local (cfgs p) p s (.setRole call want) (s.phase (p, .setRole call want)) o next) :
    Projects cfgs p ⟨o, update s.phase (p, .setRole call want) next⟩ := by
  generalize here : s.phase (p, .setRole call want) = phase at goes of
  cases goes with
  | recorded => exact projects.recording active (.recorded call want ‹_›) here
  | refused message | changed left base change edited inPlace =>
    exact projects.setQuiet rfl rfl active fun found => .inr ⟨found, fun _ => trivial⟩
  | done other | checked =>
    refine projects.setQuiet rfl rfl active fun found => .inr ⟨found, fun owes => ?_⟩
    rw [here] at owes
    exact owes.elim
  | skipped left base edited =>
    refine projects.setQuiet rfl rfl active fun found => .inr ⟨found, fun owes => ?_⟩
    rw [here] at owes
    obtain ⟨row, found, differs⟩ := owes
    simp [edit, found, differs] at edited
  | displaced left base edited => cases (of_edit_displaced edited).1
  | added left base roles inc edited => cases (of_edit_change edited).1
  | booted boot d ver | finished boot | waited idle goes | adopted inc | steppedDown => cases of
  | observed boot d ver goes => cases boot <;> cases of

theorem booted_eq_false (undecided : phase.outcome = none) : phase.booted = false := by
  simp [Phase.booted, undecided]

theorem collecting_of_outcome (decided : phase.outcome = some boot)
    (works : (∃ change, phase.pending = some change) ∨
      ∃ th reason next, phase.failed th reason = some next) :
    ∃ expired d ver, phase = .collecting (some boot) expired d ver := by
  cases phase with
  | collecting other expired d ver =>
    obtain rfl := decided
    exact ⟨expired, d, ver, rfl⟩
  | bootPut left inc | bootGet left inc | bootSet left inc cur ver | polling | reading left
  | writing left base other => cases decided
  | _ => exact absurd works (by simp [Phase.pending, Phase.failed])

theorem bootstrapped_of_won {inc : Nat} {data : Document} {ver : Version} (of : phase.Of .start)
    (writes : phase.pending = some (.boot inc)) (decided : (phase.won data ver).outcome = some boot)
    : ∃ d ver', phase.won data ver = .bootstrapped boot d ver' := by
  cases phase with
  | bootPut left other | bootSet left other cur old =>
    cases decided
    exact ⟨data, ver, rfl⟩
  | collecting other expired d old => cases writes
  | writing left base change =>
    cases writes
    cases of.2
  | _ => cases writes

theorem update_start_setRole (phases : Nat × Thread → Phase Version) (next : Phase Version)
    (p call : Nat) (want : Role) :
    update phases (p, .start) next (p, .setRole call want) =
      phases (p, .setRole call want) := update_of_ne (by simp) _ _

section

variable (projects : Projects cfgs p s)
include projects

theorem Projects.idle (unstarted : (s.object.procs p).started = false) (call : Nat) (want : Role) :
    s.phase (p, .setRole call want) = .idle := by
  by_contra active
  simp [projects.called active] at unstarted

theorem Projects.start_unstarted (unstarted : (s.object.procs p).started = false)
    (agrees : ∀ {row}, o.rows.find (cfgs p).self.id = some row →
      row.roles = wanted cfgs ⟨o, update s.phase (p, .start) next⟩ p) :
    Projects cfgs p ⟨o, update s.phase (p, .start) next⟩ := by
  refine ⟨fun {call want} active => ?_, fun _ row found => .inl (agrees found)⟩
  simp only [update_start_setRole] at active
  exact absurd (projects.idle unstarted call want) active

theorem Projects.start_unbooted (known : Known vs cfgs p s)
    (started : (o.procs p).started = (s.object.procs p).started)
    (roles : (o.procs p).roles = (s.object.procs p).roles) (unbooted : next.booted = false)
    (rows : (s.object.procs p).started = true → o.rows = s.object.rows) :
    Projects cfgs p ⟨o, update s.phase (p, .start) next⟩ := by
  have calls := update_start_setRole s.phase next p
  refine ⟨fun {call want} active => ?_, fun running row found => ?_⟩
  · simp only [calls, started] at active ⊢
    exact projects.called active
  · simp only [update_self, unbooted, started] at running
    have active := running.resolve_right (by simp)
    rw [rows active] at found
    have other : ∀ boot d ver, next ≠ .bootstrapped boot d ver := by
      rintro boot d ver rfl
      cases unbooted
    rw [wanted_eq (by simpa using other)]
    simp only [roles, calls]
    have settled := projects.settled (.inl active) found
    rwa [known.wanted_eq active] at settled

theorem Projects.start_booted (unstarted : (s.object.procs p).started = false)
    (booted : (s.phase (p, .start)).booted = true)
    (same : wanted cfgs ⟨o, update s.phase (p, .start) next⟩ p = wanted cfgs s p)
    (kept : ∀ {row}, o.rows.find (cfgs p).self.id = some row →
      s.object.rows.find (cfgs p).self.id = some row) :
    Projects cfgs p ⟨o, update s.phase (p, .start) next⟩ := by
  refine projects.start_unstarted unstarted fun found => ?_
  rw [same]
  refine (projects.settled (.inr booted) (kept found)).resolve_right ?_
  rintro ⟨call, want, owes⟩
  rw [projects.idle unstarted] at owes
  exact owes

theorem Projects.starting_here (known : Known vs cfgs p s)
    (goes : Local (cfgs p) p s .start (s.phase (p, .start)) o next) :
    Projects cfgs p ⟨o, update s.phase (p, .start) next⟩ := by
  have of := known.of (p, .start)
  have rows : o.rows = s.object.rows := by
    rw [Shared.rows, (of_local of goes).1, Shared.rows]
  have booting := (known.passes (p, .start)).booting rfl
  generalize here : s.phase (p, .start) = phase at goes of booting
  cases goes with
  | refused message => exact projects.start_unbooted known rfl rfl rfl fun _ => rows
  | done other => exact absurd rfl other
  | boot unstarted =>
    exact projects.start_unbooted known (by simp [Shared.setProc, Shared.mint])
      (by simp [Shared.setProc, Shared.mint]) rfl fun _ => rows
  | booted boot d ver =>
    refine projects.start_booted (booting rfl) (by rw [here]; rfl) ?_ fun found => rows ▸ found
    rw [wanted_eq (by simp)]
    simp [Shared.setProc, wanted, here]
  | observed boot d ver goes =>
    cases boot with
    | none => cases of
    | some boot =>
      refine projects.start_booted (booting rfl) (by rw [here]; rfl) ?_
        fun found => rows ▸ found
      rw [wanted_eq ?_, wanted_eq (by simp [here])]
      · simp [Shared.setProc]
      · rcases goes with rfl | rfl <;> simp [afterPass]
  | finished boot =>
    refine projects.start_booted (booting rfl) (by rw [here]; rfl) ?_ fun found => rows ▸ found
    rw [wanted_eq (by simp), wanted_eq (by simp [here])]
    simp [Shared.setProc]
  | waited idle goes | adopted inc | steppedDown => cases of
  | skipped left base edited | displaced left base edited | added left base roles inc edited
  | changed left base change edited inPlace => exact absurd rfl of.1

end

variable [DecidableEq Version]

theorem Moved.call_of_idle (moved : Moved vs cfgs s pid th event o next)
    (idle : s.phase (pid, th) = .idle) : event = .call := by
  cases moved with
  | called ready => rfl
  | wrote writes | lost writes | conflicted writes => simp [idle, Phase.pending] at writes
  | got quiet goes => simp [idle, Phase.got] at goes
  | failed goes => simp [idle, Phase.failed] at goes
  | here quiet goes =>
    have active := goes.active
    simp [idle, Phase.inactive] at active

theorem find_landed (known : Known vs cfgs p s)
    (carries : pid = p → carriesRecorded vs cfgs s (pid, th) = true)
    (writes : (s.phase (pid, th)).pending = some change)
    (stored : s.object.document.attempt vs ((s.phase (pid, th)).data (cfgs pid) change)
      ((s.phase (pid, th)).base.map Prod.snd) = some later)
    (found : ({ s.object with document := later } : Shared).rows.find (cfgs p).self.id = some row) :
    (pid = p → change.collects = true) ∧ s.object.rows.find (cfgs p).self.id = some row ∨
      pid = p ∧ change.roles = some row.roles ∧ row.roles = (s.object.procs p).roles ∨
      pid = p ∧ (∃ inc, change = .boot inc) ∧
        row.roles = bootRoles (cfgs p) (bootOf s.object.rows) := by
  obtain ⟨-, rfl⟩ := (known.holds (pid, th)).stored stored
  rw [rows_with_write] at found
  rcases find_written known found with ⟨rfl, left⟩ | ⟨other, held⟩
  · cases change with
    | boot inc =>
      cases left
      exact .inr (.inr ⟨rfl, ⟨inc, rfl⟩, by simp⟩)
    | renew roles | setRoles roles =>
      obtain ⟨old, -, rfl⟩ := Option.map_eq_some_iff.mp left
      refine .inr (.inl ⟨rfl, rfl, ?_⟩)
      simpa [carriesRecorded, writes, stored, Change.roles] using carries rfl
    | add roles inc =>
      cases left
      have recorded : roles = (s.object.procs pid).roles := by
        simpa [carriesRecorded, writes, stored, Change.roles] using carries rfl
      exact .inr (.inl ⟨rfl, by simp [Change.roles, readdedRow], by simpa [readdedRow]⟩)
    | remove => cases left
    | drop expired =>
      simp only [Change.ownRow] at left
      split at left
      · cases left
      · exact .inl ⟨fun _ => rfl, left⟩
  · exact .inl ⟨fun same => absurd same other, held⟩

theorem Moved.find_roles (moved : Moved vs cfgs s pid th event o next) (known : Known vs cfgs p s)
    (carries : CarriesRecorded vs cfgs p s ((pid, th), event))
    (found : o.rows.find (cfgs p).self.id = some row) :
    s.object.rows.find (cfgs p).self.id = some row ∨
      pid = p ∧ ∃ change, (s.phase (pid, th)).pending = some change ∧
        (change.roles = some row.roles ∧ row.roles = (s.object.procs p).roles ∨
          ∃ inc, change = .boot inc) := by
  cases moved with
  | called ready | conflicted writes | got quiet goes | failed goes => exact .inl found
  | here quiet goes =>
    refine .inl ?_
    rwa [Shared.rows, (of_local (known.of (pid, th)) goes).1] at found
  | wrote writes stored | lost writes stored goes =>
    rcases find_landed known carries writes stored found with
      ⟨-, held⟩ | ⟨rfl, brings, recorded⟩ | ⟨rfl, boots, -⟩
    · exact .inl held
    · exact .inr ⟨rfl, _, writes, .inl ⟨brings, recorded⟩⟩
    · exact .inr ⟨rfl, _, writes, .inr boots⟩

section

variable (projects : Projects cfgs p s)
include projects

theorem Projects.other (moved : Moved vs cfgs s pid th event o next) (known : Known vs cfgs p s)
    (carries : CarriesRecorded vs cfgs p s ((pid, th), event))
    (elsewhere : pid = p → th ≠ .start ∧ ∀ call want, th ≠ .setRole call want) :
    Projects cfgs p ⟨o, update s.phase (pid, th) next⟩ := by
  have of := known.of (pid, th)
  have remembers : (o.procs p).started = (s.object.procs p).started ∧
      (o.procs p).roles = (s.object.procs p).roles := by
    rcases moved.split with ⟨rfl, -, -⟩ | ⟨procs, -, -, -⟩ | goes
    · exact ⟨rfl, rfl⟩
    · rw [procs]
      exact ⟨rfl, rfl⟩
    by_cases mine : p = pid
    · subst mine
      obtain ⟨unstarting, unsetting⟩ := elsewhere rfl
      constructor
      · rcases goes.started with same | ⟨boot, finishing, -⟩
        · exact same
        · rw [finishing] at of
          exact absurd of unstarting
      · rcases goes.roles with same | ⟨boot, d, ver, booted, -⟩ | ⟨call, want, sets, -⟩
        · exact same
        · rw [booted] at of
          exact absurd of unstarting
        · exact absurd sets (unsetting call want)
    · rw [goes.procs_of_ne mine]
      exact ⟨rfl, rfl⟩
  refine projects.frame remembers.1 remembers.2 (update_of_ne ?_ _ _)
    (fun call want => update_of_ne ?_ _ _) fun found => ?_
  · exact fun same => (elsewhere (Prod.mk.inj same).1.symm).1 (Prod.mk.inj same).2.symm
  · exact fun same => (elsewhere (Prod.mk.inj same).1.symm).2 _ _ (Prod.mk.inj same).2.symm
  · rcases moved.find_roles known carries found with held | ⟨rfl, change, writes, brings⟩
    · exact .inl held
    · obtain ⟨unstarting, unsetting⟩ := elsewhere rfl
      have made := madeBy_of_pending of writes
      rcases brings with ⟨brings, recorded⟩ | ⟨inc, rfl⟩
      · -- a renewal writes the roles, so the process is started
        have renews : th = .renew := by
          cases change with
          | renew roles | add roles inc => exact made
          | setRoles roles =>
            obtain ⟨call, want, sets⟩ := made
            exact absurd sets (unsetting call want)
          | _ => cases brings
        have started := (known.passes (pid, th)).ticking (.inl renews)
          (inactive_of_working (working_of_pending writes))
        exact .inr (recorded.trans (known.wanted_eq started).symm)
      · exact absurd made unstarting

theorem Projects.setting (moved : Moved vs cfgs s p (.setRole call want) event o next)
    (known : Known vs cfgs p s) (active : (s.object.procs p).started = true)
    (carries : CarriesRecorded vs cfgs p s ((p, .setRole call want), event)) :
    Projects cfgs p ⟨o, update s.phase (p, .setRole call want) next⟩ := by
  have of := known.of (p, .setRole call want)
  have recorded := known.wanted_eq active
  cases moved with
  | called ready =>
    refine projects.setQuiet rfl rfl active fun found => .inr ⟨found, fun owes => ?_⟩
    cases here : s.phase (p, .setRole call want) with
    | idle =>
      rw [here] at owes
      exact owes.elim
    | _ => simp [callable, here] at ready
  | wrote writes stored | lost writes stored goes =>
    refine projects.setQuiet rfl rfl active fun found => .inl ?_
    obtain ⟨roles, rfl⟩ := of_pending_setRole of writes
    rcases find_landed known carries writes stored found with
      ⟨collects, -⟩ | ⟨-, -, agrees⟩ | ⟨-, ⟨inc, boots⟩, -⟩
    · cases collects rfl
    · exact agrees.trans recorded.symm
    · cases boots
  | conflicted writes =>
    refine projects.setQuiet rfl rfl active fun found => .inr ⟨found, fun _ => ?_⟩
    obtain ⟨left, base, here⟩ := of_pending_mutate (by simp) (by simp) of writes
    rw [here]
    cases left <;> trivial
  | got quiet goes =>
    obtain ⟨left, -, rfl⟩ := of_got_mutate (by simp) (by simp) of goes
    refine projects.setQuiet rfl rfl active fun {row} found => ?_
    by_cases agrees : row.roles = (s.object.procs p).roles
    · exact .inl (agrees.trans recorded.symm)
    · refine .inr ⟨found, fun _ => ⟨row, ?_, agrees⟩⟩
      rwa [CondObject.map_fst_get]
  | failed goes =>
    obtain ⟨-, message, rfl⟩ := of_failed_mutate (by simp) (by simp) of goes
    exact projects.setQuiet rfl rfl active fun found => .inr ⟨found, fun _ => trivial⟩
  | here quiet goes => exact projects.setting_here active of goes

theorem Projects.start_collected {expired : List String} {d : Document} {ver : Version}
    (moved : Moved vs cfgs s p .start event o next) (known : Known vs cfgs p s)
    (carries : CarriesRecorded vs cfgs p s ((p, .start), event))
    (here : s.phase (p, .start) = .collecting (some boot) expired d ver)
    (finishes : next = .finishing boot) (procs : o.procs p = s.object.procs p) :
    Projects cfgs p ⟨o, update s.phase (p, .start) next⟩ := by
  have unstarted := (known.passes (p, .start)).booting rfl (by rw [here]; rfl)
  refine projects.start_booted unstarted (by rw [here]; rfl) ?_ fun found => ?_
  · rw [wanted_eq (by simp [finishes]), wanted_eq (by simp [here]), procs]
  · rcases moved.find_roles known carries found with held | ⟨-, change, writes, brings⟩
    · exact held
    · rw [here] at writes
      cases writes
      rcases brings with ⟨brings, -⟩ | ⟨inc, boots⟩
      · cases brings
      · cases boots

theorem Projects.start_won {inc : Nat} (known : Known vs cfgs p s)
    (unstarted : (s.object.procs p).started = false)
    (carries : CarriesRecorded vs cfgs p s ((p, .start), .access))
    (writes : (s.phase (p, .start)).pending = some (.boot inc))
    (stored : s.object.document.attempt vs ((s.phase (p, .start)).data (cfgs p) (.boot inc))
      ((s.phase (p, .start)).base.map Prod.snd) = some later)
    (won : boot = bootOf (s.phase (p, .start)).rows)
    (wins : ∃ d ver, next = .bootstrapped boot d ver) :
    Projects cfgs p ⟨{ s.object with document := later }, update s.phase (p, .start) next⟩ := by
  obtain ⟨d, ver, rfl⟩ := wins
  refine projects.start_unstarted unstarted fun found => ?_
  simp only [wanted, update_self]
  rcases find_landed known carries writes stored found with
    ⟨collects, -⟩ | ⟨-, brings, -⟩ | ⟨-, -, boots⟩
  · cases collects rfl
  · cases brings
  · rw [boots, won, ((known.holds (p, .start)).stored stored).1]

theorem Projects.starting (moved : Moved vs cfgs s p .start event o next)
    (known : Known vs cfgs p s) (carries : CarriesRecorded vs cfgs p s ((p, .start), event)) :
    Projects cfgs p ⟨o, update s.phase (p, .start) next⟩ := by
  have collected : ∀ {boot expired d ver},
      s.phase (p, .start) = .collecting (some boot) expired d ver → next = .finishing boot →
        o.procs p = s.object.procs p →
          Projects cfgs p ⟨o, update s.phase (p, .start) next⟩ :=
    projects.start_collected moved known carries
  have booting := (known.passes (p, .start)).booting rfl
  cases moved with
  | called ready => exact projects.start_unbooted known rfl rfl rfl fun _ => rfl
  | wrote writes stored =>
    have unstarted := booting (working_of_pending writes)
    cases decided : ((s.phase (p, .start)).won _ _).outcome with
    | none =>
      refine projects.start_unbooted known rfl rfl (booted_eq_false decided) fun started => ?_
      simp [unstarted] at started
    | some boot =>
      rcases outcome_won writes decided with before | ⟨⟨inc, rfl⟩, won⟩
      · obtain ⟨expired, d, ver, here⟩ := collecting_of_outcome before (.inl ⟨_, writes⟩)
        exact collected here (by rw [here]; rfl) rfl
      · exact projects.start_won known unstarted carries writes stored won
          (bootstrapped_of_won (known.of _) writes decided)
  | @lost change later reason next writes stored goes =>
    have unstarted := booting (working_of_pending writes)
    cases decided : next.outcome with
    | none =>
      refine projects.start_unbooted known rfl rfl (booted_eq_false decided) fun started => ?_
      simp [unstarted] at started
    | some boot =>
      obtain ⟨expired, d, ver, here⟩ :=
        collecting_of_outcome (outcome_failed goes decided) (.inr ⟨_, _, _, goes⟩)
      rw [here] at goes
      exact collected here (Option.some.inj goes).symm rfl
  | conflicted writes =>
    cases decided : ((s.phase (p, .start)).conflict .start).outcome with
    | none =>
      exact projects.start_unbooted known rfl rfl (booted_eq_false decided) fun _ => rfl
    | some boot =>
      obtain ⟨expired, d, ver, here⟩ :=
        collecting_of_outcome (outcome_conflict decided) (.inl ⟨_, writes⟩)
      exact collected here (by rw [here]; rfl) rfl
  | got quiet goes =>
    exact projects.start_unbooted known rfl rfl (booted_eq_false (outcome_got goes)) fun _ => rfl
  | @failed reason next goes =>
    cases decided : next.outcome with
    | none =>
      exact projects.start_unbooted known rfl rfl (booted_eq_false decided) fun _ => rfl
    | some boot =>
      obtain ⟨expired, d, ver, here⟩ :=
        collecting_of_outcome (outcome_failed goes decided) (.inr ⟨_, _, _, goes⟩)
      rw [here] at goes
      exact collected here (Option.some.inj goes).symm rfl
  | here quiet goes => exact projects.starting_here known goes

end

theorem projects_of_reaches (alone : ∀ q, (cfgs q).self.id = (cfgs p).self.id → q = p)
    (reached : (machine vs cfgs).Reaches (RolesCurrent vs cfgs p) initial s) :
    Projects cfgs p s := by
  induction reached with
  | refl =>
    refine ⟨fun active => absurd rfl active, fun running => ?_⟩
    simp [initial, Proc.new, Phase.booted, Phase.working] at running
  | @tail s s' action reached current stepped projects =>
    obtain ⟨⟨pid, th⟩, event⟩ := action
    obtain ⟨o, next, moved, rfl⟩ := Threads.of_step stepped
    have known := known_of_reaches alone reached
    obtain ⟨called, carries⟩ := current
    have moved := of_program moved
    by_cases mine : pid = p
    · subst mine
      cases th with
      | start => exact projects.starting moved known carries
      | setRole call want =>
        refine projects.setting moved known ?_ carries
        by_cases idle : s.phase (pid, .setRole call want) = .idle
        · obtain rfl := moved.call_of_idle idle
          exact called rfl
        · exact projects.called idle
      | renew | poll | close =>
        exact projects.other moved known carries fun _ => by simp
    · exact projects.other moved known carries fun same => absurd same mine

/-- In every run in which the calls of `SetRole` on a started process have all returned without
an error, and in which every role change of the process that takes effect carries the roles that
it has recorded by then, its row carries the roles that it has recorded last. -/
theorem roles_converge (alone : ∀ q, (cfgs q).self.id = (cfgs p).self.id → q = p)
    (reached : (machine vs cfgs).Reaches (RolesCurrent vs cfgs p) initial s)
    (started : (s.object.procs p).started = true)
    (returned : ∀ call want, s.phase (p, .setRole call want) = .idle ∨
      s.phase (p, .setRole call want) = .returned .ok)
    (found : s.object.rows.find (cfgs p).self.id = some row) :
    row.roles = (s.object.procs p).roles := by
  have projects := projects_of_reaches alone reached
  have recorded := (known_of_reaches alone reached).wanted_eq started
  rcases projects.settled (.inl started) found with agrees | ⟨call, want, owes⟩
  · exact agrees.trans recorded
  · rcases returned call want with idle | done
    · rw [idle] at owes
      exact owes.elim
    · rw [done] at owes
      exact owes.elim

end Step

/-- Two calls of `SetRole` on node `a`. The first has prepared its write when the second records
that no role is wanted and finds the row without one; then the write of the first takes effect. -/
theorem roles_diverge :
    (∀ q, (twoNodes q).self.id = (twoNodes 0).self.id → q = 0) ∧
    ∃ (s : State Nat) (row : DocRow),
      (machine (.counted _) twoNodes).Reaches
        (fun s action => CalledStarted 0 s action ∧ action.1 ≠ (0, .renew)) initial s ∧
      (s.object.procs 0).started = true ∧
      (∀ call want, s.phase (0, .setRole call want) = .idle ∨
        s.phase (0, .setRole call want) = .returned .ok) ∧
      s.object.rows.find (twoNodes 0).self.id = some row ∧
      row.roles ≠ (s.object.procs 0).roles := by
  obtain ⟨s, reached, ⟨started, first, second⟩, found, recorded⟩ :=
    Machine.exists_reaches_of_run (machine (.counted _) twoNodes)
      (fun s action => CalledStarted 0 s action ∧
        action.1 ∈ [(0, .start), (0, .setRole 0 .draining), (0, .setRole 1 0)])
      (callOf (0, .start) 5 ++ callOf (0, .setRole 0 .draining) 4 ++
        callOf (0, .setRole 1 0) 4 ++ [((0, .setRole 0 .draining), .access)])
      initial
      (fun s => ((s.object.procs 0).started = true ∧
        s.phase (0, .setRole 0 .draining) = .returned .ok ∧
        s.phase (0, .setRole 1 0) = .returned .ok) ∧
        s.object.rows.find "a" = some ⟨"a", "a:1", .draining, 8, 1, 0⟩ ∧
        (s.object.procs 0).roles = 0)
      (by decide)
  refine ⟨twoNodes_alone, s, _, reached.mono ?_, started, fun call want => ?_, found, ?_⟩
  · rintro s action ⟨called, listed⟩
    refine ⟨called, fun renews => ?_⟩
    simp [renews] at listed
  · by_cases listed : (call = 0 ∧ want = .draining) ∨ (call = 1 ∧ want = 0)
    · rcases listed with ⟨rfl, rfl⟩ | ⟨rfl, rfl⟩
      · exact .inr first
      · exact .inr second
    · refine .inl (Threads.phase_of_reaches reached fun allowed => listed ?_)
      simpa using allowed.2
  · rw [recorded]
    decide

theorem roles_converge_interleaved :
    ∃ (s : State Nat) (row : DocRow),
      (machine (.counted _) twoNodes).Reaches (RolesCurrent (.counted _) twoNodes 0) initial s ∧
      ((s.object.procs 0).roles = .joining ∧ s.phase (0, .setRole 1 .joining) = .returned .ok) ∧
      s.object.rows.find (twoNodes 0).self.id = some row ∧
      row.roles = (s.object.procs 0).roles := by
  obtain ⟨s, reached, ⟨started, first, second⟩, found, recorded⟩ :=
    Machine.exists_reaches_of_run (machine (.counted _) twoNodes)
      (fun s action => RolesCurrent (.counted _) twoNodes 0 s action ∧
        action.1 ∈ [(0, .start), (0, .setRole 0 .draining), (0, .setRole 1 .joining)])
      (callOf (0, .start) 5 ++ callOf (0, .setRole 0 .draining) 3 ++
        callOf (0, .setRole 1 .joining) 2 ++
        List.replicate 2 ((0, .setRole 0 .draining), .access) ++
        List.replicate 2 ((0, .setRole 1 .joining), .access))
      initial
      (fun s => ((s.object.procs 0).started = true ∧
        s.phase (0, .setRole 0 .draining) = .returned .ok ∧
        s.phase (0, .setRole 1 .joining) = .returned .ok) ∧
        s.object.rows.find "a" = some ⟨"a", "a:1", .joining, 8, 1, 0⟩ ∧
        (s.object.procs 0).roles = .joining)
      (by decide)
  have current : (machine (.counted _) twoNodes).Reaches (RolesCurrent (.counted _) twoNodes 0)
      initial s := reached.mono fun allowed => allowed.1
  refine ⟨s, _, current, ⟨recorded, second⟩, found, ?_⟩
  refine roles_converge twoNodes_alone current started (fun call want => ?_) found
  by_cases listed : (call = 0 ∧ want = .draining) ∨ (call = 1 ∧ want = .joining)
  · rcases listed with ⟨rfl, rfl⟩ | ⟨rfl, rfl⟩
    · exact .inr first
    · exact .inr second
  · refine .inl (Threads.phase_of_reaches reached fun allowed => listed ?_)
    simpa using allowed.2

end Shale.Membership
