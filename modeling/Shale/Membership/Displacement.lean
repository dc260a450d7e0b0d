import Shale.Membership.Founding

/-!
# Two processes with one node ID

A renewal looks at the incarnation of its row before it writes it, and steps down if the row is
not its own. `SetRole` and `Close` look only at the ID. A process touches rows that another one
with its ID has written only through these two, and it steps down without being displaced only
if the answer to a write that adds its row again has been lost.
-/

namespace Shale.Membership

open Machine

def Shared.minter (o : Shared) (inc : Nat) : Option Nat := o.minted[inc]?.map Prod.fst

theorem minter_append {o o' : Shared} {inc pid : Nat} {extra : List (Nat × Thread)}
    (minted : o'.minted = o.minted ++ extra) (own : o.minter inc = some pid) :
    o'.minter inc = some pid := by
  obtain ⟨name, held, rfl⟩ := Option.map_eq_some_iff.mp own
  obtain ⟨below, -⟩ := List.getElem?_eq_some_iff.mp held
  rw [Shared.minter, minted, List.getElem?_append_left below, held, Option.map_some]

section Condition

variable {Version : Type}

/-- The check that a renewal makes, made by a closure of `SetRole` or `Close`: the row it finds
under its ID carries the incarnation that the process has recorded as its own. -/
def findsOwnRow (cfgs : Nat → Config) (s : State Version) (name : Nat × Thread) : Bool :=
  match name.2, s.phase name with
  | .setRole _ _, .editing _ base | .close, .editing _ base =>
    (((base.map Prod.fst).getD []).find (cfgs name.1).self.id).all
      fun row => some row.inc = (s.object.procs name.1).selfInc
  | _, _ => true

def FindsOwnRow (cfgs : Nat → Config) (s : State Version) (action : (Nat × Thread) × Event) :
    Prop := findsOwnRow cfgs s action.1 = true

instance (cfgs : Nat → Config) :
    DecidableRel (FindsOwnRow cfgs : State Version → (Nat × Thread) × Event → Prop) :=
  fun _ _ => inferInstanceAs (Decidable (_ = true))

end Condition

section Step

variable {Version : Type} {vs : Versions Document Version} {cfgs : Nat → Config}
  {s : State Version} {o : Shared} {phase next : Phase Version} {pid : Nat} {th : Thread}
  {cfg : Config} {name : Nat × Thread}

def Recorded (o : Shared) : Prop :=
  ∀ {pid inc}, (o.procs pid).selfInc = some inc → o.minter inc = some pid

/-- What holds of a thread that has prepared a change of its row: a change in place finds a row
that its process has minted, and a row is added only where there is none. -/
structure Prepares (cfgs : Nat → Config) (name : Nat × Thread) (o : Shared)
    (phase : Phase Version) : Prop where
  own : ∀ {change row}, phase.pending = some change → change.inc = none →
    change.collects = false → phase.rows.find (cfgs name.1).self.id = some row →
      o.minter row.inc = some name.1
  absent : ∀ {roles inc}, phase.pending = some (.add roles inc) →
    phase.rows.find (cfgs name.1).self.id = none
  adopts : ∀ {inc}, phase = .settingInc inc → o.minter inc = some name.1

theorem Prepares.idle (quiet : phase.pending = none) (other : ∀ inc, phase ≠ .settingInc inc) :
    Prepares cfgs name o phase := by
  refine ⟨fun writes => ?_, fun writes => ?_, fun {inc} same => absurd same (other inc)⟩ <;>
  · rw [quiet] at writes
    cases writes

variable {fresh inc : Nat} {proc : Proc} {row : DocRow} {d : Document}

theorem Prepares.boot {left : Nat} :
    Prepares cfgs name o (.bootPut left inc : Phase Version) := by
  refine ⟨fun writes kept => ?_, fun writes => (by cases writes), fun same => (by cases same)⟩
  cases writes
  cases kept

theorem Prepares.minted {o' : Shared} (prepares : Prepares cfgs name o phase)
    {extra : List (Nat × Thread)} (minted : o'.minted = o.minted ++ extra) :
    Prepares cfgs name o' phase :=
  ⟨fun writes kept own found => minter_append minted (prepares.own writes kept own found),
    prepares.absent, fun adopting => minter_append minted (prepares.adopts adopting)⟩

theorem Local.selfInc (goes : Local cfg pid s th phase o next) :
    (o.procs pid).selfInc = (s.object.procs pid).selfInc ∨
      (th = .start ∧ phase = .entered ∧
        next = .bootPut (casAttempts - 1) s.object.minted.length ∧
        (o.procs pid).selfInc = some s.object.minted.length ∧
        o.minted = s.object.minted ++ [(pid, .start)]) ∨
      ∃ inc, phase = .settingInc inc ∧ next = .returned .ok ∧ (o.procs pid).selfInc = some inc := by
  cases goes with
  | boot unstarted =>
    exact .inr (.inl ⟨rfl, rfl, rfl, by simp [Shared.setProc],
      by simp [Shared.setProc, Shared.mint]⟩)
  | adopted inc => exact .inr (.inr ⟨inc, rfl, rfl, by simp [Shared.setProc]⟩)
  | _ => exact .inl (by simp [Shared.setProc, Shared.mint])

theorem Local.minted (goes : Local cfg pid s th phase o next) :
    ∃ extra, o.minted = s.object.minted ++ extra := by
  cases goes with
  | boot unstarted => exact ⟨[(pid, .start)], rfl⟩
  | added left base roles inc edited => exact ⟨[(pid, th)], rfl⟩
  | _ => exact ⟨[], by simp [Shared.setProc]⟩

theorem of_edit_inPlace {change : Change} (edited : edit cfg proc fresh d th = .change change)
    (found : d.find cfg.self.id = some row) :
    (th = .renew ∧ some row.inc = proc.selfInc) ∨ (∃ call want, th = .setRole call want) ∨
      th = .close := by
  cases th with
  | renew =>
    simp only [edit, found] at edited
    split at edited
    · cases edited
    case isFalse own => exact .inl ⟨rfl, not_not.mp own⟩
  | setRole call want => exact .inr (.inl ⟨call, want, rfl⟩)
  | close => exact .inr (.inr rfl)
  | start | poll => cases edited

theorem of_edit_add {roles : Role} (edited : edit cfg proc fresh d th = .change (.add roles inc)) :
    d.find cfg.self.id = none := by
  cases found : d.find cfg.self.id with
  | none => rfl
  | some row =>
    exfalso
    cases th with
    | renew | setRole call want =>
      simp only [edit, found] at edited
      split at edited <;> cases edited
    | close =>
      simp only [edit, found] at edited
      cases edited
    | start | poll => cases edited

theorem Local.prepares (goes : Local (cfgs pid) pid s th phase o next)
    (here : s.phase (pid, th) = phase) (recorded : Recorded s.object)
    (finds : findsOwnRow cfgs s (pid, th) = true) : Prepares cfgs (pid, th) o next := by
  cases goes with
  | boot unstarted => exact .boot
  | observed boot d ver goes =>
    rcases goes with rfl | rfl
    · exact .idle (by cases boot <;> rfl) fun inc same => by cases boot <;> cases same
    · refine ⟨fun writes _ own => ?_, fun writes => (by cases writes),
        fun same => (by cases same)⟩
      cases writes
      cases own
  | added left base roles inc edited =>
    refine ⟨fun writes kept => ?_, fun _ => of_edit_add edited, fun same => (by cases same)⟩
    cases writes
    cases kept
  | changed left base change edited inPlace =>
    refine ⟨fun {other row} writes kept _ found => ?_, fun {roles inc} writes => ?_,
      fun same => (by cases same)⟩
    · refine recorded ?_
      rcases of_edit_inPlace edited found with ⟨-, own⟩ | mutates
      · exact own.symm
      · symm
        replace found : Document.find ((base.map Prod.fst).getD []) _ = some row := found
        rcases mutates with ⟨call, want, rfl⟩ | rfl <;>
          simpa [findsOwnRow, here, found] using finds
    · exact absurd (Option.some.inj writes) (inPlace roles inc)
  | recorded call want goes => rcases goes with ⟨rfl, -⟩ | rfl <;> exact .idle rfl (by simp)
  | waited idle goes => rcases goes with rfl | ⟨rfl, -⟩ <;> exact .idle rfl (by simp)
  | _ => exact .idle rfl (by simp)

variable [DecidableEq Version] {event : Event}

theorem Moved.prepares (moved : Moved vs cfgs s pid th event o next)
    (own : Holds vs (pid, th) s.object (s.phase (pid, th))) (recorded : Recorded s.object)
    (prepares : ∀ name, Prepares cfgs name s.object (s.phase name))
    (finds : findsOwnRow cfgs s (pid, th) = true) :
    Recorded o ∧ Prepares cfgs (pid, th) o next ∧
      ∀ other, other ≠ (pid, th) → Prepares cfgs other o (s.phase other) := by
  rcases moved.split with ⟨rfl, rfl, ready⟩ | ⟨procs, minted, working, answered⟩ | goes
  · exact ⟨recorded, .idle rfl (by simp), fun other _ => prepares other⟩
  · have same : o.minted = s.object.minted ++ [] := by simp [minted]
    refine ⟨fun {pid inc} held => ?_, ⟨fun writes kept => ?_, fun writes => ?_, ?_⟩,
      fun other _ => (prepares other).minted same⟩
    · rw [procs] at held
      exact minter_append same (recorded held)
    · obtain ⟨inc, rfl⟩ := answered.boots writes
      cases kept
    · obtain ⟨inc, same⟩ := answered.boots writes
      cases same
    · rintro inc rfl
      have minting : (s.phase (pid, th)).minting = some inc := by
        rcases answered with accessed | ⟨roles, other, -, minting, same⟩
        · cases accessed
        · rwa [Phase.settingInc.inj same]
      rw [Shared.minter, minted, (own.minting minting).1, Option.map_some]
  · obtain ⟨extra, minted⟩ := goes.minted
    refine ⟨fun {other inc} held => ?_, goes.prepares rfl recorded finds,
      fun other _ => (prepares other).minted minted⟩
    by_cases same : other = pid
    · subst same
      rcases goes.selfInc with kept | ⟨-, -, -, fresh, more⟩ | ⟨adopted, adopting, -, now⟩
      · exact minter_append minted (recorded (kept ▸ held))
      · cases fresh.symm.trans held
        simp [Shared.minter, more]
      · cases now.symm.trans held
        exact minter_append minted ((prepares (other, th)).adopts adopting)
    · rw [goes.procs_of_ne same] at held
      exact minter_append minted (recorded held)

theorem prepares_of_reaches (reached : (machine vs cfgs).Reaches (FindsOwnRow cfgs) initial s) :
    Recorded s.object ∧ ∀ name, Prepares cfgs name s.object (s.phase name) := by
  refine Threads.invariant Recorded (Prepares cfgs) reached ?_
    (fun _ => .idle rfl (by simp [initial])) ?_
  · intro pid inc held
    cases held
  · rintro s ⟨pid, th⟩ event o next reached recorded prepares finds moved
    exact (of_program moved).prepares ((holds_of_reaches reached).2 _) recorded prepares finds

theorem Sound.id_of_minter (sound : Sound cfgs o) (mem : row ∈ o.rows)
    (minted : o.minter row.inc = some pid) : row.id = (cfgs pid).self.id := by
  obtain ⟨name, held, named⟩ := sound.owned _ (mem_stored_of_mem_rows mem) row mem
  rw [Shared.minter, held, Option.map_some, Option.some.injEq] at minted
  rw [← minted, named]

/-- In a run in which every closure of `SetRole` and `Close` finds its own row, no write of a
process modifies or removes a row that another process with its ID has minted, but for its own
bootstrap. -/
theorem foreign_row_kept {p q : Nat} {s' : State Version} {row : DocRow}
    (reached : (machine vs cfgs).Reaches (FindsOwnRow cfgs) initial s)
    (stepped : (machine vs cfgs).step ((p, th), event) s = some s')
    (apart : p ≠ q) (shared : (cfgs p).self.id = (cfgs q).self.id) (member : row ∈ s.object.rows)
    (foreign : s.object.minter row.inc = some q) :
    row ∈ s'.object.rows ∨ ∃ inc, (s.phase (p, th)).pending = some (.boot inc) := by
  obtain ⟨sound, holds⟩ := holds_of_reaches reached
  obtain ⟨-, passes⟩ := passes_of_reaches reached
  obtain ⟨-, prepares⟩ := prepares_of_reaches reached
  have own : row.id = (cfgs p).self.id := (sound.id_of_minter member foreign).trans shared.symm
  have found : s.object.rows.find (cfgs p).self.id = some row :=
    sound.current_unique.find_eq_some_iff.mpr ⟨member, own⟩
  obtain ⟨o, next, moved, rfl⟩ := Threads.of_step stepped
  rcases (of_program moved).document (holds _) with same | ⟨change, writes, rows, written⟩
  · refine .inl ?_
    rwa [Shared.rows, same]
  cases brings : change.inc with
  | some inc =>
    cases change with
    | boot fresh => exact .inr ⟨fresh, writes⟩
    | add roles fresh =>
      -- a renewal adds its row only where it has found none
      have absent := (prepares (p, th)).absent writes
      rw [rows, found] at absent
      cases absent
    | _ => cases brings
  | none =>
    cases collects : change.collects with
    | true =>
      obtain ⟨boot, expired, d, ver, phase, rfl⟩ :=
        of_pending_collects (holds _).of writes collects
      have judged := (passes (p, th)).judged (by rw [phase]; rfl)
      obtain rfl : d = s.object.rows := by rw [← rows, phase]; rfl
      refine .inl ?_
      rw [rows_write written]
      exact (judged.mem_written sound.current_unique).mpr ⟨member, fun other => other.1 own⟩
    | false =>
      have minted := (prepares (p, th)).own writes brings collects (rows ▸ found)
      exact absurd (Option.some.inj (minted.symm.trans foreign)) apart

end Step

def oneNode (_ : Nat) : Config := ⟨⟨"a", "a:1"⟩, 0, 8, 5⟩

/-- Process 1 has taken over from process 0. Process 0 has not renewed since, and its `SetRole`
modifies the row of process 1, and its `Close` removes it. -/
theorem foreign_row_touched :
    (∃ s s' : State Nat, (machine (.counted _) oneNode).Reaches anyAction initial s ∧
      (machine (.counted _) oneNode).step ((0, .setRole 0 .draining), .access) s = some s' ∧
      (∃ row ∈ s.object.rows, s.object.minter row.inc = some 1 ∧ row ∉ s'.object.rows) ∧
      (s.phase (0, .setRole 0 .draining)).pending = some (.setRoles .draining)) ∧
    ∃ s s' : State Nat, (machine (.counted _) oneNode).Reaches anyAction initial s ∧
      (machine (.counted _) oneNode).step ((0, .close), .access) s = some s' ∧
      (∃ row ∈ s.object.rows, s.object.minter row.inc = some 1) ∧ s'.object.rows = [] := by
  constructor
  · exact exists_step_of_run (machine (.counted _) oneNode) anyAction
      (callOf (0, .start) 5 ++ callOf (1, .start) 7 ++ callOf (0, .setRole 0 .draining) 4)
      ((0, .setRole 0 .draining), .access) initial
      (fun s s' => (∃ row ∈ s.object.rows, s.object.minter row.inc = some 1 ∧
        row ∉ s'.object.rows) ∧
        (s.phase (0, .setRole 0 .draining)).pending = some (.setRoles .draining))
      (by decide)
  · exact exists_step_of_run (machine (.counted _) oneNode) anyAction
      (callOf (0, .start) 5 ++ callOf (1, .start) 7 ++ callOf (0, .close) 4)
      ((0, .close), .access) initial
      (fun s s' => (∃ row ∈ s.object.rows, s.object.minter row.inc = some 1) ∧
        s'.object.rows = [])
      (by decide)

theorem foreign_row_kept_renewal :
    ∃ (s s' : State Nat) (row : DocRow),
      (machine (.counted _) oneNode).Reaches (FindsOwnRow oneNode) initial s ∧
      (machine (.counted _) oneNode).step ((0, .renew), .access) s = some s' ∧
      (s.object.rows = [row] ∧ s.object.minter row.inc = some 1 ∧
        s'.phase (0, .renew) = .steppingDown) ∧
      (row ∈ s'.object.rows ∨ ∃ inc, (s.phase (0, .renew)).pending = some (.boot inc)) := by
  obtain ⟨s, s', reached, stepped, shown⟩ := exists_step_of_run
    (machine (.counted _) oneNode) (FindsOwnRow oneNode)
    (callOf (0, .start) 5 ++ callOf (1, .start) 7 ++ callOf (0, .renew) 2) ((0, .renew), .access)
    initial
    (fun s s' => s.object.rows = [⟨"a", "a:1", 0, 8, 2, 1⟩] ∧ s.object.minter 1 = some 1 ∧
      s'.phase (0, .renew) = .steppingDown)
    (by decide)
  refine ⟨s, s', _, reached, stepped, shown, ?_⟩
  exact foreign_row_kept (q := 1) reached stepped (by decide) rfl (by simp [shown.1]) shown.2.1

end Shale.Membership
