import Shale.Membership.Displacement

/-!
# A process recognises its own row

A process that shares its node ID with no other finds, in every renewal, no row or a row with
the incarnation it has recorded. The one way to lose track is a renewal that adds the row again
and whose write takes effect without an answer: the process then keeps the incarnation it had.
-/

namespace Shale.Membership

open Machine

open Function (update update_self update_of_ne)

section Condition

variable {Version : Type}

def Phase.readds : Phase Version → Bool
  | .writing _ _ (.add _ _) => true
  | _ => false

def AnswersReadds (p : Nat) (s : State Version) (action : (Nat × Thread) × Event) : Prop :=
  match action with
  | ((pid, th), .lose _) => pid = p → (s.phase (pid, th)).readds = false
  | _ => True

instance (p : Nat) :
    DecidableRel (AnswersReadds p : State Version → (Nat × Thread) × Event → Prop) :=
  fun _ action =>
    match action with
    | (_, .lose _) => inferInstanceAs (Decidable (_ → _))
    | (_, .call) | (_, .access) | (_, .fail _) => isTrue trivial

/-- `Start` has written its row and not yet marked the process as started. -/
def Phase.booted (phase : Phase Version) : Bool := phase.working && phase.outcome.isSome

end Condition

section Step

variable {Version : Type} {vs : Versions Document Version} {cfgs : Nat → Config}
  {s : State Version} {o : Shared} {phase next : Phase Version} {p pid : Nat} {th : Thread}
  {event : Event} {row : DocRow}

/-- The incarnation that the row of a process carries if it is there: the one the process has
recorded, or the one that its renewal has written and is about to record. -/
def expected (s : State Version) (p : Nat) : Option Nat :=
  match s.phase (p, .renew) with
  | .settingInc inc => some inc
  | _ => (s.object.procs p).selfInc

structure Recognises (cfgs : Nat → Config) (p : Nat) (s : State Version) : Prop where
  undisplaced : (s.object.procs p).displaced = false
  steady : s.phase (p, .renew) ≠ .steppingDown
  booting : ∀ {inc}, (s.phase (p, .start)).minting = some inc →
    (s.object.procs p).selfInc = some inc
  current : (s.object.procs p).started = true ∨ (s.phase (p, .start)).booted = true →
    ∀ {row}, s.object.rows.find (cfgs p).self.id = some row → some row.inc = expected s p
  editing : ∀ {left base row}, s.phase (p, .renew) = .editing left base →
    Document.find ((base.map Prod.fst).getD []) (cfgs p).self.id = some row →
      some row.inc = (s.object.procs p).selfInc

/-- What the argument about a process that shares its ID with no other uses of the states
reached. -/
structure Known (vs : Versions Document Version) (cfgs : Nat → Config) (p : Nat)
    (s : State Version) : Prop where
  alone : ∀ q, (cfgs q).self.id = (cfgs p).self.id → q = p
  sound : Sound cfgs s.object
  holds : ∀ name, Holds vs name s.object (s.phase name)
  passes : ∀ name, Passes cfgs name s.object (s.phase name)

theorem Known.of (known : Known vs cfgs p s) (name : Nat × Thread) : (s.phase name).Of name.2 :=
  (known.holds name).of

theorem expected_eq (other : ∀ inc, s.phase (p, .renew) ≠ .settingInc inc) :
    expected s p = (s.object.procs p).selfInc := by
  unfold expected
  split
  case h_1 inc adopting => exact absurd adopting (other inc)
  case h_2 => rfl

variable {change : Change}

section

variable (known : Known vs cfgs p s)
  (found : ((change.apply (cfgs pid) s.object.rows).encode).find (cfgs p).self.id = some row)
include known found

theorem find_written :
    pid = p ∧ change.ownRow (cfgs p) s.object.rows = some row ∨
      pid ≠ p ∧ s.object.rows.find (cfgs p).self.id = some row := by
  have unique := known.sound.current_unique
  rw [(change.unique_apply unique).find_encode] at found
  by_cases own : pid = p
  · subst own
    rw [Change.find_apply_self unique] at found
    exact .inl ⟨rfl, found⟩
  · refine .inr ⟨own, ?_⟩
    cases collects : change.collects with
    | false =>
      rwa [Change.find_apply_of_ne unique collects
        fun same => own (known.alone _ same.symm)] at found
    | true =>
      cases change with
      | drop expired =>
        rw [Change.apply, unique.find_dropIds] at found
        split at found
        · cases found
        · exact found
      | _ => cases collects

theorem of_find_written :
    pid = p ∧ change.inc = some row.inc ∨
      (pid = p → change.inc = none) ∧
        ∃ old, s.object.rows.find (cfgs p).self.id = some old ∧ old.inc = row.inc := by
  rcases find_written known found with ⟨rfl, left⟩ | ⟨other, held⟩
  · cases change with
    | boot inc =>
      cases left
      exact .inl ⟨rfl, by simp [Change.inc]⟩
    | add roles inc =>
      cases left
      exact .inl ⟨rfl, by simp [Change.inc, readdedRow]⟩
    | renew roles | setRoles roles =>
      obtain ⟨old, held, rfl⟩ := Option.map_eq_some_iff.mp left
      exact .inr ⟨fun _ => rfl, old, held, rfl⟩
    | remove => cases left
    | drop expired =>
      simp only [Change.ownRow] at left
      split at left
      · cases left
      · exact .inr ⟨fun _ => rfl, row, left, rfl⟩
  · exact .inr ⟨fun same => absurd same other, row, held, rfl⟩

end

variable {cfg : Config} {inc : Nat} {s' : State Version}

theorem Local.displaced_eq (goes : Local cfg pid s th phase o next) :
    (o.procs pid).displaced = (s.object.procs pid).displaced ∨ phase = .steppingDown := by
  cases goes with
  | steppedDown => exact .inr rfl
  | _ => exact .inl (by simp [Shared.setProc, Shared.mint])

theorem working_of_minting (minting : phase.minting = some inc) :
    phase.working = true := by
  cases phase <;> first | rfl | cases minting

theorem Known.renew_inactive (known : Known vs cfgs p s)
    (unstarted : (s.object.procs p).started = false) : (s.phase (p, .renew)).inactive = true := by
  by_contra active
  have started := (known.passes (p, .renew)).ticking (.inl rfl) (by simpa using active)
  simp [unstarted] at started

theorem ne_settingInc_of_inactive (inactive : phase.inactive = true) (inc : Nat) :
    phase ≠ .settingInc inc := by
  rintro rfl
  cases inactive

theorem booted_iff :
    phase.booted = true ↔ phase.working = true ∧ ∃ boot, phase.outcome = some boot := by
  simp [Phase.booted, Option.isSome_iff_exists]

/-! How a thread that calls `mutate` accesses the store. -/

section

variable (unstarting : th ≠ .start) (unpolling : th ≠ .poll) (of : phase.Of th)
include unstarting unpolling of

theorem of_pending_mutate {change : Change} (writes : phase.pending = some change) :
    ∃ left base, phase = .writing left base change := by
  cases phase with
  | writing left base other =>
    cases writes
    exact ⟨left, base, rfl⟩
  | bootPut left inc | bootSet left inc cur ver => exact absurd of unstarting
  | collecting boot expired d ver =>
    cases boot with
    | none => exact absurd of unpolling
    | some boot => exact absurd of unstarting
  | _ => cases writes

theorem of_got_mutate {read : Option (Document × Version)} (goes : phase.got read = some next) :
    ∃ left, phase = .reading left ∧ next = .editing left read := by
  cases phase with
  | reading left => exact ⟨left, rfl, (Option.some.inj goes).symm⟩
  | bootGet left inc => exact absurd of unstarting
  | polling => exact absurd of unpolling
  | _ => cases goes

theorem of_failed_mutate {reason : String} (goes : phase.failed th reason = some next) :
    (∀ inc, phase ≠ .settingInc inc) ∧ ∃ message, next = finish th (.error message) := by
  cases phase with
  | reading left | writing left base change =>
    exact ⟨by simp, _, (Option.some.inj goes).symm⟩
  | bootPut left inc | bootGet left inc | bootSet left inc cur ver => exact absurd of unstarting
  | polling => exact absurd of unpolling
  | collecting boot expired d ver =>
    cases boot with
    | none => exact absurd of unpolling
    | some boot => exact absurd of unstarting
  | _ => cases goes

end

theorem of_pending_renew (of : phase.Of .renew) (writes : phase.pending = some change) :
    ∃ left base, phase = .writing left base change ∧
      ((∃ roles, change = .renew roles) ∨ ∃ roles inc, change = .add roles inc) := by
  obtain ⟨left, base, rfl⟩ := of_pending_mutate (by simp) (by simp) of writes
  refine ⟨left, base, rfl, ?_⟩
  have made := madeBy_of_pending of writes
  cases change with
  | renew roles => exact .inl ⟨roles, rfl⟩
  | add roles inc => exact .inr ⟨roles, inc, rfl⟩
  | boot inc | remove => cases made
  | setRoles roles => obtain ⟨call, want, same⟩ := made; cases same
  | drop expired => rcases made with same | same <;> cases same

theorem Local.start_minting (goes : Local cfg pid s .start phase o next)
    (minting : next.minting = some inc) : (o.procs pid).selfInc = some inc := by
  cases goes with
  | boot unstarted =>
    cases minting
    simp [Shared.setProc]
  | observed boot d ver goes =>
    rcases goes with rfl | rfl
    · rw [minting_afterPass] at minting
      cases minting
    · cases minting
  | waited idle goes => rcases goes with rfl | ⟨rfl, -⟩ <;> cases minting
  | added left base roles inc edited => cases edited
  | changed left base change edited inPlace => cases edited
  | _ => cases minting

section

variable (recognises : Recognises cfgs p s)
  (displaced : (s'.object.procs p).displaced = (s.object.procs p).displaced)
  (selfInc : (s'.object.procs p).selfInc = (s.object.procs p).selfInc)
include recognises displaced selfInc

theorem Recognises.startFrame (renews : s'.phase (p, .renew) = s.phase (p, .renew))
    (booting : ∀ {inc}, (s'.phase (p, .start)).minting = some inc →
      (s'.object.procs p).selfInc = some inc)
    (current : (s'.object.procs p).started = true ∨ (s'.phase (p, .start)).booted = true →
      ∀ {row}, s'.object.rows.find (cfgs p).self.id = some row → some row.inc = expected s p) :
    Recognises cfgs p s' := by
  have same : expected s' p = expected s p := by
    rw [expected, renews, selfInc]
    rfl
  refine ⟨displaced ▸ recognises.undisplaced, renews ▸ recognises.steady, booting, ?_, ?_⟩
  · rw [same]
    exact current
  · rw [renews, selfInc]
    exact recognises.editing

theorem Recognises.frame (started : (s'.object.procs p).started = (s.object.procs p).started)
    (starts : s'.phase (p, .start) = s.phase (p, .start))
    (renews : s'.phase (p, .renew) = s.phase (p, .renew))
    (kept : ∀ {row}, s'.object.rows.find (cfgs p).self.id = some row →
      ∃ old, s.object.rows.find (cfgs p).self.id = some old ∧ old.inc = row.inc) :
    Recognises cfgs p s' := by
  refine recognises.startFrame displaced selfInc renews ?_ ?_
  · rw [starts, selfInc]
    exact recognises.booting
  rw [starts, started]
  intro running row found
  obtain ⟨old, held, inc⟩ := kept found
  rw [← inc]
  exact recognises.current running held

end

theorem Recognises.start_written (recognises : Recognises cfgs p s) (known : Known vs cfgs p s)
    (writes : (s.phase (p, .start)).pending = some change)
    (won : (s.phase (p, .start)).booted = true ∨ change.inc ≠ none)
    (found : ((change.apply (cfgs p) s.object.rows).encode).find (cfgs p).self.id = some row) :
    some row.inc = expected s p := by
  have unstarted := (known.passes (p, .start)).booting rfl (working_of_pending writes)
  have recorded := expected_eq (ne_settingInc_of_inactive (known.renew_inactive unstarted))
  rcases of_find_written known found with ⟨-, brings⟩ | ⟨none, old, held, inc⟩
  · rw [recorded, recognises.booting (minting_of_pending (known.of _) writes brings)]
  · rw [← inc]
    exact recognises.current (.inr (won.resolve_right fun brings => brings (none rfl))) held

variable [DecidableEq Version]

theorem known_of_reaches {allowed : State Version → (Nat × Thread) × Event → Prop}
    (alone : ∀ q, (cfgs q).self.id = (cfgs p).self.id → q = p)
    (reached : (machine vs cfgs).Reaches allowed initial s) : Known vs cfgs p s :=
  ⟨alone, (holds_of_reaches reached).1, (holds_of_reaches reached).2, (passes_of_reaches reached).2⟩

theorem Moved.find_kept (moved : Moved vs cfgs s pid th event o next) (known : Known vs cfgs p s)
    (quiet : pid = p → ∀ {change}, (s.phase (pid, th)).pending = some change → change.inc = none)
    (found : o.rows.find (cfgs p).self.id = some row) :
    ∃ old, s.object.rows.find (cfgs p).self.id = some old ∧ old.inc = row.inc := by
  rcases moved.document (known.holds _) with same | ⟨change, writes, -, written⟩
  · refine ⟨row, ?_, rfl⟩
    rwa [Shared.rows, ← same]
  · rw [rows_write written] at found
    rcases of_find_written known found with ⟨mine, brings⟩ | ⟨-, held⟩
    · rw [quiet mine writes] at brings
      cases brings
    · exact held

theorem Recognises.other (recognises : Recognises cfgs p s)
    (moved : Moved vs cfgs s pid th event o next) (known : Known vs cfgs p s)
    (elsewhere : pid = p → th ≠ .start ∧ th ≠ .renew) :
    Recognises cfgs p ⟨o, update s.phase (pid, th) next⟩ := by
  have starts : (p, Thread.start) ≠ (pid, th) := fun same =>
    (elsewhere (Prod.mk.inj same).1.symm).1 (Prod.mk.inj same).2.symm
  have renews : (p, Thread.renew) ≠ (pid, th) := fun same =>
    (elsewhere (Prod.mk.inj same).1.symm).2 (Prod.mk.inj same).2.symm
  have remembers : (o.procs p).displaced = (s.object.procs p).displaced ∧
      (o.procs p).selfInc = (s.object.procs p).selfInc ∧
      (o.procs p).started = (s.object.procs p).started := by
    rcases moved.split with ⟨rfl, -, -⟩ | ⟨procs, -, -, -⟩ | goes
    · exact ⟨rfl, rfl, rfl⟩
    · rw [procs]
      exact ⟨rfl, rfl, rfl⟩
    · by_cases mine : p = pid
      · subst mine
        obtain ⟨unstarting, unrenewing⟩ := elsewhere rfl
        have of := known.of (p, th)
        refine ⟨?_, ?_, ?_⟩
        · refine goes.displaced_eq.resolve_right fun stepping => ?_
          rw [stepping] at of
          exact unrenewing of
        · rcases goes.selfInc with same | ⟨starting, -⟩ | ⟨inc, adopting, -⟩
          · exact same
          · exact absurd starting unstarting
          · rw [adopting] at of
            exact absurd of unrenewing
        · rcases goes.started with same | ⟨boot, finishing, -⟩
          · exact same
          · rw [finishing] at of
            exact absurd of unstarting
      · rw [goes.procs_of_ne mine]
        exact ⟨rfl, rfl, rfl⟩
  refine recognises.frame remembers.1 remembers.2.1 remembers.2.2 (update_of_ne starts _ _)
    (update_of_ne renews _ _) fun found => moved.find_kept known ?_ found
  intro mine change writes
  have made := madeBy_of_pending (known.of _) writes
  cases change with
  | boot inc => exact absurd made (elsewhere mine).1
  | add roles inc => exact absurd made (elsewhere mine).2
  | _ => rfl

omit [DecidableEq Version] in
theorem Recognises.startQuiet (recognises : Recognises cfgs p s)
    (minting : next.minting = none ∨ next.minting = (s.phase (p, .start)).minting)
    (booted : next.booted = true → (s.phase (p, .start)).booted = true) :
    Recognises cfgs p ⟨s.object, update s.phase (p, .start) next⟩ := by
  refine recognises.startFrame rfl rfl (update_of_ne (by simp) _ _) ?_ ?_
  · simp only [update_self]
    intro inc mints
    rcases minting with none | same
    · rw [none] at mints
      cases mints
    · exact recognises.booting (same ▸ mints)
  · simp only [update_self]
    intro running row found
    exact recognises.current (running.imp_right booted) found

theorem Recognises.starting (recognises : Recognises cfgs p s)
    (moved : Moved vs cfgs s p .start event o next) (known : Known vs cfgs p s) :
    Recognises cfgs p ⟨o, update s.phase (p, .start) next⟩ := by
  have renews : update s.phase (p, .start) next (p, .renew) = s.phase (p, .renew) :=
    update_of_ne (by simp) _ _
  have own := known.holds (p, .start)
  have booting := (known.passes (p, .start)).booting rfl
  cases moved with
  | called ready => exact recognises.startQuiet (.inl rfl) fun booted => by cases booted
  | @wrote change later writes stored =>
    obtain ⟨-, rfl⟩ := own.stored stored
    have working := working_of_pending writes
    refine recognises.startFrame rfl rfl renews ?_ ?_
    · simp only [update_self, minting_won]
      intro inc mints
      cases mints
    · simp only [update_self, booting working]
      intro running row found
      obtain ⟨-, boot, decided⟩ := booted_iff.mp (running.resolve_left (by simp))
      rw [rows_with_write] at found
      refine recognises.start_written known writes ?_ found
      rcases outcome_won writes decided with before | ⟨⟨inc, rfl⟩, -⟩
      · exact .inl (booted_iff.mpr ⟨working, boot, before⟩)
      · exact .inr (by simp [Change.inc])
  | @lost change later reason next writes stored goes =>
    obtain ⟨-, rfl⟩ := own.stored stored
    have working := working_of_pending writes
    refine recognises.startFrame rfl rfl renews ?_ ?_
    · simp only [update_self, (of_failed own.of goes).2.2]
      intro inc mints
      cases mints
    · simp only [update_self, booting working]
      intro running row found
      obtain ⟨-, boot, decided⟩ := booted_iff.mp (running.resolve_left (by simp))
      have before := outcome_failed goes decided
      rw [rows_with_write] at found
      exact recognises.start_written known writes
        (.inl (booted_iff.mpr ⟨working, boot, before⟩)) found
  | conflicted writes =>
    refine recognises.startQuiet (minting_conflict _ _) fun booted => ?_
    obtain ⟨-, boot, decided⟩ := booted_iff.mp booted
    exact booted_iff.mpr ⟨working_of_pending writes, boot, outcome_conflict decided⟩
  | got quiet goes =>
    refine recognises.startQuiet (of_got own.of goes).2.2 fun booted => ?_
    obtain ⟨-, boot, decided⟩ := booted_iff.mp booted
    rw [outcome_got goes] at decided
    cases decided
  | failed goes =>
    refine recognises.startQuiet (.inl (of_failed own.of goes).2.2) fun booted => ?_
    obtain ⟨-, boot, decided⟩ := booted_iff.mp booted
    exact booted_iff.mpr ⟨(accessed_failed goes).1, boot, outcome_failed goes decided⟩
  | here quiet goes =>
    have document : o.rows = s.object.rows := by
      rw [Shared.rows, (of_local own.of goes).1, Shared.rows]
    have displaced : (o.procs p).displaced = (s.object.procs p).displaced := by
      refine goes.displaced_eq.resolve_right fun stepping => ?_
      have of := own.of
      rw [stepping] at of
      cases of
    have before : (o.procs p).started = true ∨ next.booted = true →
        (s.object.procs p).started = true ∨ (s.phase (p, .start)).booted = true := by
      rintro (started | booted)
      · rcases goes.started with same | ⟨boot, finishing, -, -⟩
        · exact .inl (same ▸ started)
        · exact .inr (by rw [finishing]; rfl)
      · obtain ⟨-, boot, decided⟩ := booted_iff.mp booted
        have ends := outcome_local goes decided
        refine .inr (booted_iff.mpr ⟨?_, boot, ends⟩)
        generalize s.phase (p, .start) = phase at goes ends ⊢
        cases goes <;> first | rfl | cases ends
    rcases goes.selfInc with same | ⟨-, entered, boots, recorded, -⟩ | ⟨inc, adopting, -⟩
    · refine recognises.startFrame displaced same renews ?_ ?_
      · simp only [update_self]
        exact goes.start_minting
      · simp only [update_self, document]
        exact fun running _ found => recognises.current (before running) found
    · -- the incarnation is recorded before the row is written
      subst boots
      have unstarted := (goes.booting rfl).resolve_left (by simp [entered, Phase.working])
      have inactive := known.renew_inactive unstarted
      refine ⟨displaced ▸ recognises.undisplaced, ?_, ?_, ?_, ?_⟩
      · simp only [renews]
        exact recognises.steady
      · simp only [update_self]
        exact goes.start_minting
      · simp only [update_self]
        intro running
        have booted := (before running).resolve_left (by simp [unstarted])
        rw [entered] at booted
        cases booted
      · simp only [renews]
        intro left base row editing
        rw [editing] at inactive
        cases inactive
    · have of := own.of
      rw [adopting] at of
      cases of

section

variable (recognises : Recognises cfgs p s)
include recognises

omit [DecidableEq Version] in
theorem Recognises.renewed {s' : State Version} (procs : s'.object.procs p = s.object.procs p)
    (starts : s'.phase (p, .start) = s.phase (p, .start))
    (before : ∀ inc, s.phase (p, .renew) ≠ .settingInc inc)
    (steady : s'.phase (p, .renew) ≠ .steppingDown)
    (after : ∀ inc, s'.phase (p, .renew) ≠ .settingInc inc)
    (kept : ∀ {row}, s'.object.rows.find (cfgs p).self.id = some row →
      ∃ old, s.object.rows.find (cfgs p).self.id = some old ∧ old.inc = row.inc)
    (editing : ∀ {left base row}, s'.phase (p, .renew) = .editing left base →
      Document.find ((base.map Prod.fst).getD []) (cfgs p).self.id = some row →
        some row.inc = (s.object.procs p).selfInc) : Recognises cfgs p s' := by
  refine ⟨procs ▸ recognises.undisplaced, steady, ?_, ?_, procs ▸ editing⟩
  · rw [starts, procs]
    exact recognises.booting
  · rw [starts, procs, expected_eq after, procs, ← expected_eq before]
    intro running row found
    obtain ⟨old, held, inc⟩ := kept found
    exact inc ▸ recognises.current running held

theorem Recognises.renewing_quiet (moved : Moved vs cfgs s p .renew event o next)
    (known : Known vs cfgs p s) (procs : o.procs p = s.object.procs p)
    (before : ∀ inc, s.phase (p, .renew) ≠ .settingInc inc)
    (unadded : o.document = s.object.document ∨ (s.phase (p, .renew)).minting = none)
    (steady : next ≠ .steppingDown) (after : ∀ inc, next ≠ .settingInc inc)
    (editing : ∀ {left base row}, next = .editing left base →
      Document.find ((base.map Prod.fst).getD []) (cfgs p).self.id = some row →
        some row.inc = (s.object.procs p).selfInc) :
    Recognises cfgs p ⟨o, update s.phase (p, .renew) next⟩ := by
  refine recognises.renewed procs (update_of_ne (by simp) _ _) before ?_ ?_ ?_ ?_
  · simpa only [update_self] using steady
  · simpa only [update_self] using after
  · intro row found
    rcases unadded with same | unminting
    · refine ⟨row, ?_, rfl⟩
      rwa [Shared.rows, ← same]
    · refine moved.find_kept known (fun _ change writes => ?_) found
      cases brings : change.inc with
      | none => rfl
      | some inc =>
        rw [minting_of_pending (known.of _) writes brings] at unminting
        cases unminting
  · simp only [update_self]
    exact editing

theorem Recognises.renewing_here (quiet : (s.phase (p, .renew)).pending = none)
    (goes : Local (cfgs p) p s .renew (s.phase (p, .renew)) o next) (known : Known vs cfgs p s) :
    Recognises cfgs p ⟨o, update s.phase (p, .renew) next⟩ := by
  have of := known.of (p, .renew)
  have starts : update s.phase (p, .renew) next (p, .start) = s.phase (p, .start) :=
    update_of_ne (by simp) _ _
  have framed := recognises.renewing_quiet (.here quiet goes) known
  generalize here : s.phase (p, .renew) = phase at goes of
  cases goes with
  | refused message | done other | renewing | skipped left base edited
  | added left base roles inc edited | changed left base change edited inPlace =>
    refine framed rfl ?_ (.inl rfl) (by simp) (by simp) (by simp)
    simp [here]
  | displaced left base edited =>
    obtain ⟨-, row, found, foreign⟩ := of_edit_displaced edited
    exact absurd (recognises.editing here found) foreign
  | steppedDown => exact absurd here recognises.steady
  | adopted inc =>
    have started := (known.passes (p, .renew)).ticking (.inl rfl) (by rw [here]; rfl)
    have recorded : expected s p = some inc := by rw [expected, here]
    refine ⟨?_, ?_, fun minting => ?_, ?_, ?_⟩
    · simpa [Shared.setProc] using recognises.undisplaced
    · simp
    · -- `Start` is over
      simp only [starts] at minting
      have booting := (known.passes (p, .start)).booting rfl (working_of_minting minting)
      simp [started] at booting
    · intro _ row found
      rw [expected_eq (by simp)]
      simp only [Shared.setProc, update_self]
      rw [← recorded]
      exact recognises.current (.inl started) found
    · simp
  | booted boot d ver | finished boot | waited idle goes => cases of
  | observed boot d ver goes => cases boot <;> cases of

theorem Recognises.renewing_added {inc : Nat} {roles : Role} {later : CondObject Document}
    (known : Known vs cfgs p s) (stored : s.object.document.attempt vs
      ((s.phase (p, .renew)).data (cfgs p) (.add roles inc))
      ((s.phase (p, .renew)).base.map Prod.snd) = some later) :
    Recognises cfgs p ⟨{ s.object with document := later },
      update s.phase (p, .renew) (.settingInc inc)⟩ := by
  obtain ⟨-, rfl⟩ := (known.holds (p, .renew)).stored stored
  have starts : update s.phase (p, .renew) (.settingInc inc) (p, .start) =
      s.phase (p, .start) := update_of_ne (by simp) _ _
  refine ⟨recognises.undisplaced, by simp, ?_, ?_, by simp⟩
  · simp only [starts]
    exact recognises.booting
  · intro _ row found
    rw [rows_with_write] at found
    rcases of_find_written known found with ⟨-, brings⟩ | ⟨none, -⟩
    · simp only [expected, update_self]
      exact brings.symm
    · cases none rfl

theorem Recognises.renewing (moved : Moved vs cfgs s p .renew event o next)
    (known : Known vs cfgs p s) (answers : AnswersReadds p s ((p, .renew), event)) :
    Recognises cfgs p ⟨o, update s.phase (p, .renew) next⟩ := by
  have framed := recognises.renewing_quiet moved known
  have of := known.of (p, .renew)
  cases moved with
  | called ready =>
    refine framed rfl (ne_settingInc_of_inactive ?_) (.inl rfl) (by simp) (by simp) (by simp)
    simp only [callable, Bool.and_eq_true] at ready
    exact ready.1.1
  | @wrote change later writes stored =>
    obtain ⟨left, base, here, ⟨roles, rfl⟩ | ⟨roles, inc, rfl⟩⟩ := of_pending_renew of writes
    · refine framed rfl ?_ (.inr ?_) ?_ ?_ ?_ <;> simp [here, Phase.minting, Phase.won]
    · have adopts : ∀ data ver, (s.phase (p, .renew)).won data ver = .settingInc inc :=
        fun _ _ => by rw [here]; rfl
      rw [adopts]
      exact recognises.renewing_added known stored
  | @lost change later reason next writes stored goes =>
    obtain ⟨left, base, here, ⟨roles, rfl⟩ | ⟨roles, inc, rfl⟩⟩ := of_pending_renew of writes
    · rw [here] at goes
      cases goes
      refine framed rfl ?_ (.inr ?_) ?_ ?_ ?_ <;> simp [here, Phase.minting, finish]
    · have answered := answers rfl
      rw [here] at answered
      cases answered
  | conflicted writes =>
    obtain ⟨left, base, here, -⟩ := of_pending_renew of writes
    refine framed rfl ?_ (.inl rfl) ?_ ?_ ?_ <;> cases left <;>
      simp [here, Phase.conflict, retryMutate, finish]
  | @got next quiet goes =>
    obtain ⟨left, here, rfl⟩ := of_got_mutate (by simp) (by simp) of goes
    have before : ∀ inc, s.phase (p, .renew) ≠ .settingInc inc := by simp [here]
    refine framed rfl before (.inl rfl) (by simp) (by simp) ?_
    intro _ base row same found
    obtain ⟨-, rfl⟩ := Phase.editing.inj same
    have started := (known.passes (p, .renew)).ticking (.inl rfl) (by rw [here]; rfl)
    rw [← expected_eq before]
    refine recognises.current (.inl started) ?_
    rwa [s.object.document.map_fst_get vs] at found
  | failed goes =>
    obtain ⟨before, message, rfl⟩ := of_failed_mutate (by simp) (by simp) of goes
    refine framed rfl before (.inl rfl) ?_ ?_ ?_ <;> simp [finish]
  | here quiet goes => exact recognises.renewing_here quiet goes known

end

theorem recognises_of_reaches (alone : ∀ q, (cfgs q).self.id = (cfgs p).self.id → q = p)
    (reached : (machine vs cfgs).Reaches (AnswersReadds p) initial s) : Recognises cfgs p s := by
  induction reached with
  | refl => exact ⟨rfl, by simp [initial], by simp [initial, Phase.minting],
      fun running => by simp [initial, Proc.new, Phase.booted, Phase.working] at running,
      by simp [initial]⟩
  | @tail s s' action reached answers stepped recognises =>
    obtain ⟨⟨pid, th⟩, event⟩ := action
    obtain ⟨o, next, moved, rfl⟩ := Threads.of_step stepped
    have known := known_of_reaches alone reached
    by_cases mine : pid = p ∧ (th = .start ∨ th = .renew)
    · obtain ⟨rfl, rfl | rfl⟩ := mine
      · exact recognises.starting (of_program moved) known
      · exact recognises.renewing (of_program moved) known answers
    · refine recognises.other (of_program moved) known fun own => ?_
      exact ⟨fun starts => mine ⟨own, .inl starts⟩, fun renews => mine ⟨own, .inr renews⟩⟩

/-- A process that shares its ID with no other is never displaced and never about to step down,
and a renewal of it finds no row or a row with the incarnation the process has recorded, if no
write that adds the row again takes effect without an answer. -/
theorem never_displaced (alone : ∀ q, (cfgs q).self.id = (cfgs p).self.id → q = p)
    (reached : (machine vs cfgs).Reaches (AnswersReadds p) initial s) :
    (s.object.procs p).displaced = false ∧ s.phase (p, .renew) ≠ .steppingDown ∧
      ∀ left base row, s.phase (p, .renew) = .editing left base →
        Document.find ((base.map Prod.fst).getD []) (cfgs p).self.id = some row →
          some row.inc = (s.object.procs p).selfInc := by
  have recognises := recognises_of_reaches alone reached
  exact ⟨recognises.undisplaced, recognises.steady, fun _ _ _ => recognises.editing⟩

end Step

theorem twoNodes_alone (q : Nat) (same : (twoNodes q).self.id = (twoNodes 0).self.id) : q = 0 := by
  cases q with
  | zero => rfl
  | succ q => simp [twoNodes] at same

/-- Node `a` has been collected by node `b`, and adds its row again under a new incarnation. The
answer to that write is lost, and its next renewal takes the row for that of another process. -/
theorem displaced_alone :
    (∀ q, (twoNodes q).self.id = (twoNodes 0).self.id → q = 0) ∧
    ∃ s : State Nat, (machine (.counted _) twoNodes).Reaches anyAction initial s ∧
      (s.object.procs 0).displaced = true := by
  refine ⟨twoNodes_alone, ?_⟩
  exact exists_reaches_of_run (machine (.counted _) twoNodes) anyAction
    (callOf (0, .start) 5 ++ callOf (1, .start) 7 ++ callOf (1, .poll) 4 ++
      callOf (0, .renew) 3 ++ [((0, .renew), .lose "timeout")] ++ callOf (0, .renew) 4)
    initial (fun s => (s.object.procs 0).displaced = true) (by decide)

theorem never_displaced_readded :
    ∃ s : State Nat, (machine (.counted _) twoNodes).Reaches (AnswersReadds 0) initial s ∧
      ((s.object.procs 0).selfInc = some 2 ∧
        s.object.rows.find "a" = some ⟨"a", "a:1", 0, 8, 2, 2⟩) ∧
      (s.object.procs 0).displaced = false := by
  obtain ⟨s, reached, shown⟩ := exists_reaches_of_run
    (machine (.counted _) twoNodes) (AnswersReadds 0)
    (callOf (0, .start) 5 ++ callOf (1, .start) 7 ++ callOf (1, .poll) 4 ++
      callOf (0, .renew) 5 ++ callOf (0, .renew) 4)
    initial
    (fun s => (s.object.procs 0).selfInc = some 2 ∧
      s.object.rows.find "a" = some ⟨"a", "a:1", 0, 8, 2, 2⟩)
    (by decide)
  exact ⟨s, reached, shown, (never_displaced twoNodes_alone reached).1⟩

end Shale.Membership
