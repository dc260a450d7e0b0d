import Shale.Membership.Rows

/-!
# Collection of silent rows

What a coordinator judges in a pass is still true when it writes: the tracker belongs to the
documents it has observed, no second pass of the same coordinator comes in between, and the
write replaces the very document of the pass.
-/

namespace Shale.Membership

open Machine

section Phase

variable {Version : Type} {phase next : Phase Version} {th : Thread} {cfg : Config} {pid : Nat}
  {s : State Version} {o : Shared}

/-- The first step of a call is behind it, and its end is not. -/
def Phase.working : Phase Version → Bool
  | .idle | .entered | .returned _ => false
  | _ => true

def Phase.collects : Phase Version → Option (List String × Document)
  | .collecting _ expired d _ => some (expired, d)
  | _ => none

/-- The phases that follow an access to the store, but for the one that adopts an incarnation. -/
def Phase.accessed : Phase Version → Bool
  | .bootPut _ _ | .bootGet _ _ | .bootSet _ _ _ _ | .bootstrapped _ _ _ | .observing _ _ _
  | .finishing _ | .reading _ | .editing _ _ | .returned _ => true
  | _ => false

theorem accessed_afterPass (boot : Option Bootstrap) :
    (afterPass boot : Phase Version).accessed = true := by cases boot <;> rfl

theorem accessed_finish (th : Thread) (result : Result) :
    (finish th result : Phase Version).accessed = true := by cases th <;> rfl

theorem accessed_retryBoot (left inc : Nat) :
    (retryBoot left inc : Phase Version).accessed = true := by cases left <;> rfl

theorem accessed_won (phase : Phase Version) (data : Document) (ver : Version) :
    (phase.won data ver).accessed = true ∨ ∃ roles inc, phase.pending = some (.add roles inc) ∧
      phase.minting = some inc ∧ phase.won data ver = .settingInc inc := by
  unfold Phase.won
  split
  · exact .inl rfl
  · exact .inl rfl
  · exact .inl (accessed_afterPass _)
  · exact .inr ⟨_, _, rfl, rfl, rfl⟩
  · exact .inl rfl

theorem accessed_conflict (phase : Phase Version) (th : Thread) :
    (phase.conflict th).accessed = true := by
  unfold Phase.conflict
  split
  · rfl
  · exact accessed_retryBoot _ _
  · exact accessed_afterPass _
  · unfold retryMutate
    split
    · exact accessed_finish _ _
    · rfl
  · rfl

theorem accessed_failed {reason : String} (goes : phase.failed th reason = some next) :
    phase.working = true ∧ next.accessed = true := by
  unfold Phase.failed at goes
  split at goes <;> cases goes
  · exact ⟨rfl, rfl⟩
  · exact ⟨rfl, rfl⟩
  · exact ⟨rfl, rfl⟩
  · exact ⟨rfl, accessed_afterPass _⟩
  · exact ⟨rfl, rfl⟩
  all_goals exact ⟨rfl, accessed_finish _ _⟩

theorem accessed_got {read : Option (Document × Version)} (goes : phase.got read = some next) :
    phase.working = true ∧ next.accessed = true := by
  unfold Phase.got at goes
  split at goes
  · split at goes <;> cases goes
    · exact ⟨rfl, accessed_retryBoot _ _⟩
    · exact ⟨rfl, rfl⟩
  · split at goes <;> cases goes <;> exact ⟨rfl, rfl⟩
  · cases goes
    exact ⟨rfl, rfl⟩
  · cases goes

/-- How a thread goes on after an access: if it is the write that adds its row, by adopting the
incarnation. -/
def Phase.Answered (phase next : Phase Version) : Prop :=
  next.accessed = true ∨ ∃ roles inc, phase.pending = some (.add roles inc) ∧
    phase.minting = some inc ∧ next = .settingInc inc

theorem Phase.Answered.boots {change : Change} (answered : phase.Answered next)
    (writes : next.pending = some change) : ∃ inc, change = .boot inc := by
  rcases answered with accessed | ⟨roles, inc, -, -, rfl⟩
  · cases next with
    | bootPut left inc | bootSet left inc cur ver => exact ⟨inc, (Option.some.inj writes).symm⟩
    | collecting boot expired d ver | writing left base change => cases accessed
    | _ => cases writes
  · cases writes

theorem Phase.Answered.collects (answered : phase.Answered next) : next.collects = none := by
  cases next with
  | collecting boot expired d ver =>
    obtain ⟨inc, same⟩ := answered.boots rfl
    cases same
  | _ => rfl

theorem working_of_pending {change : Change} (writes : phase.pending = some change) :
    phase.working = true := by
  cases phase <;> first | rfl | cases writes

theorem of_pending_collects {change : Change} (of : phase.Of th)
    (writes : phase.pending = some change) (collects : change.collects = true) :
    ∃ boot expired d ver, phase = .collecting boot expired d ver ∧ change = .drop expired := by
  cases phase with
  | collecting boot expired d ver =>
    exact ⟨boot, expired, d, ver, rfl, (Option.some.inj writes).symm⟩
  | writing left base other =>
    obtain rfl := Option.some.inj writes
    obtain ⟨-, mutates⟩ := of
    cases other with
    | drop expired => cases mutates
    | _ => cases collects
  | bootPut left inc | bootSet left inc cur ver =>
    cases writes
    cases collects
  | _ => cases writes

theorem Moved.split [DecidableEq Version] {vs : Versions Document Version} {cfgs : Nat → Config}
    {event : Event} (moved : Moved vs cfgs s pid th event o next) :
    (o = s.object ∧ next = .entered ∧
        callable (s.object.procs pid) (s.phase (pid, th)) th = true) ∨
      (o.procs = s.object.procs ∧ o.minted = s.object.minted ∧
        (s.phase (pid, th)).working = true ∧ (s.phase (pid, th)).Answered next) ∨
      Local (cfgs pid) pid s th (s.phase (pid, th)) o next := by
  cases moved with
  | called ready => exact .inl ⟨rfl, rfl, ready⟩
  | wrote writes stored =>
    exact .inr (.inl ⟨rfl, rfl, working_of_pending writes, accessed_won _ _ _⟩)
  | lost writes stored goes | failed goes =>
    obtain ⟨working, accessed⟩ := accessed_failed goes
    exact .inr (.inl ⟨rfl, rfl, working, .inl accessed⟩)
  | conflicted writes =>
    exact .inr (.inl ⟨rfl, rfl, working_of_pending writes, .inl (accessed_conflict _ _)⟩)
  | got quiet goes =>
    obtain ⟨working, accessed⟩ := accessed_got goes
    exact .inr (.inl ⟨rfl, rfl, working, .inl accessed⟩)
  | here quiet goes => exact .inr (.inr goes)

section

variable (goes : Local cfg pid s th phase o next)
include goes

theorem Local.procs_of_ne {other : Nat} (apart : other ≠ pid) :
    o.procs other = s.object.procs other := by
  cases goes <;> first | rfl | exact Function.update_of_ne apart _ _

theorem Local.started :
    (o.procs pid).started = (s.object.procs pid).started ∨
      ∃ boot, phase = .finishing boot ∧ next = .returned (.bootstrapped boot) ∧
        (o.procs pid).started = true := by
  cases goes with
  | finished boot => exact .inr ⟨boot, rfl, rfl, by simp [Shared.setProc]⟩
  | _ => exact .inl (by simp [Shared.setProc, Shared.mint])

theorem Local.active : phase.inactive = false := by
  cases goes <;> rfl

end

theorem Local.booting (goes : Local cfg pid s .start phase o next) (working : next.working = true) :
    phase.working = true ∨ (s.object.procs pid).started = false := by
  cases goes with
  | boot unstarted => exact .inr unstarted
  | refused message => cases working
  | done other => exact absurd rfl other
  | _ => exact .inl rfl

theorem Local.seen (goes : Local cfg pid s th phase o next) :
    ((o.procs pid).seen = (s.object.procs pid).seen ∧
        (o.procs pid).observer = (s.object.procs pid).observer ∧ next.collects = none) ∨
      ∃ boot d ver, phase = .observing boot d ver ∧
        (o.procs pid).seen = d :: (s.object.procs pid).seen ∧
        (o.procs pid).observer =
          (observe cfg (s.object.procs pid).roles d (s.object.procs pid).observer).1 ∧
        ∀ {pending}, next.collects = some pending → pending =
          ((observe cfg (s.object.procs pid).roles d (s.object.procs pid).observer).2, d) := by
  cases goes with
  | observed boot d ver goes =>
    refine .inr ⟨boot, d, ver, rfl, by simp [Shared.setProc], by simp [Shared.setProc], ?_⟩
    intro pending collects
    rcases goes with rfl | rfl
    · cases boot <;> cases collects
    · exact (Option.some.inj collects).symm
  | recorded call want goes =>
    rcases goes with ⟨rfl, -⟩ | rfl <;> exact .inl (by simp [Shared.setProc, Phase.collects])
  | waited idle goes =>
    rcases goes with rfl | ⟨rfl, -⟩ <;> exact .inl (by simp [Shared.setProc, Phase.collects])
  | _ => exact .inl (by simp [Shared.setProc, Shared.mint, Phase.collects])

end Phase

/-- What a pass has judged: from its document, the last one the coordinator has observed, the IDs
but its own whose rows have been unchanged for one document more than the limit. -/
def Judged (cfg : Config) (seen : List Document) (pending : List String × Document) : Prop :=
  seen.head? = some pending.2 ∧
    ∀ id, id ∈ pending.1 ↔ id ≠ cfg.self.id ∧
      ∃ row ∈ pending.2, row.id = id ∧ Unchanged (cfg.polls + 1) seen row

structure Watched (cfgs : Nat → Config) (o : Shared) : Prop where
  tracks : ∀ pid, (o.procs pid).observer.Tracks (cfgs pid) (o.procs pid).seen
  stored : ∀ pid, ∀ d ∈ (o.procs pid).seen, d ∈ o.document.stored

section Run

variable {Version : Type} {vs : Versions Document Version} {cfgs : Nat → Config}
  {s : State Version} {o : Shared} {phase next : Phase Version} {pid : Nat} {th : Thread}
  {name : Nat × Thread} {event : Event}

/-- What holds of one thread: `Start` works only before the process is started and the loops
only after it, and what a pass has judged is still so. -/
structure Passes (cfgs : Nat → Config) (name : Nat × Thread) (o : Shared)
    (phase : Phase Version) : Prop where
  booting : name.2 = .start → phase.working = true → (o.procs name.1).started = false
  ticking : name.2 = .renew ∨ name.2 = .poll → phase.inactive = false →
    (o.procs name.1).started = true
  judged : ∀ {pending}, phase.collects = some pending →
    Judged (cfgs name.1) (o.procs name.1).seen pending

theorem Passes.of_procs (passes : Passes cfgs name s.object phase)
    (same : o.procs name.1 = s.object.procs name.1) : Passes cfgs name o phase := by
  refine ⟨?_, ?_, ?_⟩
  · rw [same]
    exact passes.booting
  · rw [same]
    exact passes.ticking
  · rw [same]
    exact passes.judged

theorem inactive_of_working (working : phase.working = true) : phase.inactive = false := by
  cases phase <;> first | rfl | cases working

theorem working_of_collects {pending : List String × Document}
    (collects : phase.collects = some pending) (of : phase.Of th) :
    phase.working = true ∧ (th = .start ∨ th = .poll) := by
  cases phase with
  | collecting boot expired d ver =>
    refine ⟨rfl, ?_⟩
    cases boot with
    | none => exact .inr of
    | some boot => exact .inl of
  | _ => cases collects

theorem Passes.exclusive {mine : Phase Version}
    (starts : Passes cfgs (pid, .start) o phase) (polls : Passes cfgs (pid, .poll) o mine)
    (working : phase.working = true) (polling : mine.working = true) : False := by
  have unstarted := starts.booting rfl working
  have started := polls.ticking (.inr rfl) (inactive_of_working polling)
  simp [unstarted] at started

theorem Passes.sibling {other : Thread} (apart : other ≠ th)
    (own : Passes cfgs (pid, th) s.object (s.phase (pid, th))) (of : (s.phase (pid, th)).Of th)
    (goes : Local (cfgs pid) pid s th (s.phase (pid, th)) o next)
    (passes : Passes cfgs (pid, other) s.object (s.phase (pid, other)))
    (of' : (s.phase (pid, other)).Of other) :
    Passes cfgs (pid, other) o (s.phase (pid, other)) := by
  refine ⟨fun starts working => ?_, fun ticks active => ?_, fun {pending} collects => ?_⟩
  · rcases goes.started with same | ⟨boot, finishing, -, -⟩
    · rw [same]
      exact passes.booting starts working
    · rw [finishing] at of
      exact absurd (starts.trans of.symm) apart
  · rcases goes.started with same | ⟨-, -, -, started⟩
    · rw [same]
      exact passes.ticking ticks active
    · exact started
  · rcases goes.seen with ⟨same, -, -⟩ | ⟨boot, d, ver, observing, -, -, -⟩
    · rw [same]
      exact passes.judged collects
    · -- a second pass of the process would have to run beside the first one
      exfalso
      have working : (s.phase (pid, th)).working = true := by rw [observing]; rfl
      obtain ⟨collecting, rfl | rfl⟩ := working_of_collects collects of'
      · obtain rfl : th = .poll := by
          rw [observing] at of
          cases boot with
          | none => exact of
          | some boot => exact absurd of.symm apart
        exact passes.exclusive own collecting working
      · obtain rfl : th = .start := by
          rw [observing] at of
          cases boot with
          | none => exact absurd of.symm apart
          | some boot => exact of
        exact own.exclusive passes working collecting

theorem judged_observe (watched : Watched cfgs o) (sound : Sound cfgs o) {d : Document}
    (stored : d ∈ o.document.stored) (roles : Role) :
    Judged (cfgs pid) (d :: (o.procs pid).seen)
      ((observe (cfgs pid) roles d (o.procs pid).observer).2, d) := by
  refine ⟨rfl, fun id => ?_⟩
  exact (watched.tracks pid).mem_expired _ roles (sound.unique d stored)
    (fun earlier seen => sound.unique earlier (watched.stored pid earlier seen)) id

section

variable (goes : Local (cfgs pid) pid s th (s.phase (pid, th)) o next)
  (own : Holds vs (pid, th) s.object (s.phase (pid, th))) (sound : Sound cfgs s.object)
include goes own sound

theorem Local.passes (watched : Watched cfgs s.object)
    (passes : Passes cfgs (pid, th) s.object (s.phase (pid, th))) :
    Passes cfgs (pid, th) o next := by
  refine ⟨fun starts working => ?_, fun ticks active => ?_, fun {pending} collects => ?_⟩
  · obtain rfl : th = .start := starts
    rcases goes.started with same | ⟨boot, -, rfl, -⟩
    · show (o.procs pid).started = false
      rw [same]
      rcases goes.booting working with before | unstarted
      · exact passes.booting rfl before
      · exact unstarted
    · cases working
  · rcases goes.started with same | ⟨-, -, -, started⟩
    · show (o.procs pid).started = true
      rw [same]
      exact passes.ticking ticks goes.active
    · exact started
  · rcases goes.seen with ⟨-, -, none⟩ | ⟨boot, d, ver, observing, seen, -, judged⟩
    · rw [none] at collects
      cases collects
    · have base : (s.phase (pid, th)).base = some (d, ver) := by rw [observing]; rfl
      obtain ⟨i, held, -⟩ := own.base base
      obtain rfl := judged collects
      show Judged (cfgs pid) (o.procs pid).seen _
      rw [seen]
      exact judged_observe watched sound (List.mem_of_getElem? held) _

theorem Local.watched (watched : Watched cfgs s.object) : Watched cfgs o := by
  have document := (of_local own.of goes).1
  suffices ∀ other, (o.procs other).observer.Tracks (cfgs other) (o.procs other).seen ∧
      ∀ d ∈ (o.procs other).seen, d ∈ s.object.document.stored from
    ⟨fun other => (this other).1, fun other d seen => document ▸ (this other).2 d seen⟩
  intro other
  by_cases same : other = pid
  · subst same
    rcases goes.seen with ⟨seen, observer, -⟩ | ⟨boot, d, ver, observing, seen, observer, -⟩
    · rw [seen, observer]
      exact ⟨watched.tracks other, watched.stored other⟩
    · have base : (s.phase (other, th)).base = some (d, ver) := by rw [observing]; rfl
      obtain ⟨i, held, -⟩ := own.base base
      have stored := List.mem_of_getElem? held
      rw [seen, observer]
      refine ⟨(watched.tracks other).pass _ _ (sound.unique d stored), ?_⟩
      exact List.forall_mem_cons.mpr ⟨stored, watched.stored other⟩
  · rw [goes.procs_of_ne same]
    exact ⟨watched.tracks other, watched.stored other⟩

end

variable [DecidableEq Version]

theorem Moved.passes (moved : Moved vs cfgs s pid th event o next)
    (holds : ∀ name, Holds vs name s.object (s.phase name)) (sound : Sound cfgs s.object)
    (watched : Watched cfgs s.object) (passes : ∀ name, Passes cfgs name s.object (s.phase name)) :
    Watched cfgs o ∧ Passes cfgs (pid, th) o next ∧
      ∀ other, other ≠ (pid, th) → Passes cfgs other o (s.phase other) := by
  rcases moved.split with ⟨rfl, rfl, ready⟩ | ⟨same, -, working, answered⟩ | goes
  · refine ⟨watched, ⟨fun _ working => (by cases working), fun ticks _ => ?_,
      fun collects => (by cases collects)⟩, fun other _ => passes other⟩
    rcases ticks with renews | polls
    · obtain rfl : th = .renew := renews
      simp only [callable, Bool.and_eq_true] at ready
      exact ready.1.2
    · obtain rfl : th = .poll := polls
      simp only [callable, Bool.and_eq_true] at ready
      exact ready.1.2
  · refine ⟨⟨?_, ?_⟩, ⟨?_, ?_, ?_⟩, fun other _ => (passes other).of_procs (by rw [same])⟩
    · rw [same]
      exact watched.tracks
    · rw [same]
      exact fun pid d seen => moved.stored_mono (holds _) (watched.stored pid d seen)
    · rw [same]
      exact fun starts _ => (passes (pid, th)).booting starts working
    · rw [same]
      exact fun ticks _ => (passes (pid, th)).ticking ticks (inactive_of_working working)
    · intro pending collects
      rw [answered.collects] at collects
      cases collects
  · refine ⟨goes.watched (holds _) sound watched,
      goes.passes (holds _) sound watched (passes _), ?_⟩
    rintro ⟨other, thread⟩ apart
    by_cases same : other = pid
    · subst same
      have beside : thread ≠ th := fun equal => apart (by rw [equal])
      exact (passes (other, th)).sibling beside (holds _).of goes (passes _) (holds _).of
    · exact (passes _).of_procs (goes.procs_of_ne same)

theorem passes_of_reaches {allowed : State Version → (Nat × Thread) × Event → Prop}
    (reached : (machine vs cfgs).Reaches allowed initial s) :
    Watched cfgs s.object ∧ ∀ name, Passes cfgs name s.object (s.phase name) := by
  refine Threads.invariant (Watched cfgs) (Passes cfgs) reached ?_ ?_ ?_
  · exact ⟨fun pid => tracks_new _, fun pid d seen => by cases seen⟩
  · exact fun name => ⟨fun _ working => (by cases working), fun _ active => (by cases active),
      fun collects => (by cases collects)⟩
  · rintro s ⟨pid, th⟩ event o next reached watched passes - moved
    obtain ⟨sound, holds⟩ := holds_of_reaches reached
    exact (of_program moved).passes holds sound watched passes

theorem mem_written_of_ne {cfg : Config} {d : Document} {change : Change} {row : DocRow}
    (unique : d.Unique) (own : change.collects = false) (other : row.id ≠ cfg.self.id) :
    row ∈ (change.apply cfg d).encode ↔ row ∈ d := by
  have applied : (change.apply cfg d).Unique := change.unique_apply unique
  have found := Change.find_apply_of_ne unique own other
  calc row ∈ (change.apply cfg d).encode
      ↔ row ∈ change.apply cfg d := (Document.encode_perm _).mem_iff
    _ ↔ (change.apply cfg d).find row.id = some row := by simp [applied.find_eq_some_iff]
    _ ↔ row ∈ d := by simp [found, unique.find_eq_some_iff]

theorem Judged.mem_written {cfg : Config} {seen : List Document} {expired : List String}
    {d : Document} {row : DocRow} (judged : Judged cfg seen (expired, d)) (unique : d.Unique) :
    row ∈ (d.dropIds expired).encode ↔
      row ∈ d ∧ ¬(row.id ≠ cfg.self.id ∧ Unchanged (cfg.polls + 1) seen row) := by
  rw [(Document.encode_perm _).mem_iff, Document.dropIds, List.mem_filter, decide_eq_true_eq,
    judged.2 row.id]
  refine and_congr_right fun member => not_congr (and_congr_right fun _ => ?_)
  constructor
  · rintro ⟨held, present, named, unchanged⟩
    obtain rfl : held = row := List.inj_on_of_nodup_map unique present member named
    exact unchanged
  · exact fun unchanged => ⟨row, member, rfl, unchanged⟩

/-- Every write changes only the row of its coordinator, or removes exactly the other rows that the
coordinator has found unchanged in one document more than its limit. IDs stay unique, and a lease
counter does not go back while the incarnation stays. -/
theorem writes_keep_rows {s' : State Version}
    (reached : (machine vs cfgs).Reaches anyAction initial s)
    (stepped : (machine vs cfgs).step ((pid, th), event) s = some s') :
    (s'.object.document = s.object.document ∨
      ∃ written, s'.object.document = s.object.document.write written ∧
        ((∀ row : DocRow, row.id ≠ (cfgs pid).self.id → (row ∈ written ↔ row ∈ s.object.rows)) ∨
          (∃ boot expired d ver, s.phase (pid, th) = .collecting boot expired d ver) ∧
            (s.object.procs pid).seen.head? = some s.object.rows ∧
            ∀ row : DocRow, row ∈ written ↔ row ∈ s.object.rows ∧
              ¬(row.id ≠ (cfgs pid).self.id ∧
                Unchanged ((cfgs pid).polls + 1) (s.object.procs pid).seen row))) ∧
      (∀ d ∈ s'.object.document.stored, Document.Unique d) ∧
      s'.object.document.stored.Pairwise fun d later => ∀ row ∈ d, ∀ new ∈ later,
        new.id = row.id → new.inc = row.inc → row.leaseGen ≤ new.leaseGen := by
  obtain ⟨sound, holds⟩ := holds_of_reaches reached
  obtain ⟨sound', -⟩ := holds_of_reaches (reached.tail trivial stepped)
  obtain ⟨-, passes⟩ := passes_of_reaches reached
  refine ⟨?_, sound'.unique, sound'.follows.imp fun follows row member new present _ same =>
    (follows row member new present same).leaseGen⟩
  obtain ⟨o, next, moved, rfl⟩ := Threads.of_step stepped
  rcases (of_program moved).document (holds _) with same | ⟨change, writes, rows, written⟩
  · exact .inl same
  refine .inr ⟨_, written, ?_⟩
  cases collects : change.collects with
  | false =>
    exact .inl fun row other => mem_written_of_ne sound.current_unique collects other
  | true =>
    obtain ⟨boot, expired, d, ver, phase, rfl⟩ := of_pending_collects (holds _).of writes collects
    have judged := (passes (pid, th)).judged (by rw [phase]; rfl)
    obtain rfl : d = s.object.rows := by rw [← rows, phase]; rfl
    exact .inr ⟨⟨boot, expired, _, ver, phase⟩, judged.1,
      fun row => judged.mem_written sound.current_unique⟩

end Run

def callOf (name : Nat × Thread) (steps : Nat) : List ((Nat × Thread) × Event) :=
  (name, .call) :: List.replicate steps (name, .access)

/-- Process 0 is the node `a` and process 1 the node `b`, both of which ask to join and expire a
row that one pass finds unchanged. -/
def twoNodes : Nat → Config
  | 0 => ⟨⟨"a", "a:1"⟩, .joining, 8, 1⟩
  | _ => ⟨⟨"b", "b:1"⟩, .joining, 8, 1⟩

theorem writes_keep_rows_collected :
    ∃ s s' : State Nat, (machine (.counted _) twoNodes).Reaches anyAction initial s ∧
      (machine (.counted _) twoNodes).step ((1, .poll), .access) s = some s' ∧
      (s.object.rows.map DocRow.id = ["a", "b"] ∧ s'.object.rows.map DocRow.id = ["b"]) ∧
      ∀ d ∈ s'.object.document.stored, Document.Unique d := by
  obtain ⟨s, s', reached, stepped, collected⟩ := exists_step_of_run
    (machine (.counted _) twoNodes) anyAction
    (callOf (0, .start) 5 ++ callOf (1, .start) 7 ++ callOf (1, .poll) 3) ((1, .poll), .access)
    initial
    (fun s s' => s.object.rows.map DocRow.id = ["a", "b"] ∧ s'.object.rows.map DocRow.id = ["b"])
    (by decide)
  exact ⟨s, s', reached, stepped, collected, (writes_keep_rows reached stepped).2.1⟩

end Shale.Membership
