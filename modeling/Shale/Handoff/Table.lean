import Shale.Foundation.Transducer
import Shale.Handoff.MountTable

/-!
# The mount table

The table of all positions with the backends themselves, as `mounttable.go` keeps it: a `Slot`
knows a backend only by the epoch it was opened at, an `Entry` holds the backend that
`installServing` was given and that `armDrain` and `releaseDrained` return. The operations run
one at a time under the table's lock and may come in any order, with any arguments.
-/

namespace Shale.Handoff

/-- The table's entries of one position. A backend is a pointer that may be nil. -/
structure Entry (β : Type) where
  mount : Option (Option β)
  phase : Option HandoffState
  inFlight : Bool
  openEpoch : Option Nat
deriving DecidableEq

namespace Entry

variable {β : Type}

def empty : Entry β := ⟨none, none, false, none⟩

def gainer (e : Entry β) : Bool := e.phase.any fun st => st.phase.isGainer

def loser (e : Entry β) : Bool := e.phase.any fun st => st.phase.isLoser

def setPhase (st : HandoffState) (e : Entry β) : Entry β := { e with phase := some st }

def armDrain (gate : Nat) (e : Entry β) : Option (Option β) × Entry β :=
  match e.mount with
  | none => (none, e)
  | some b =>
    if e.phase ≠ none then (none, e)
    else
      match nextOnDrain none with
      | .error _ => (none, e)
      | .ok next => (some b, { e with phase := some { next with openEpoch := gate } })

def reclaimDrain (e : Entry β) : Entry β :=
  if e.mount = none then e
  else if e.loser then { e with phase := none }
  else e

def dropStuckGainerPhase (e : Entry β) : Bool × Entry β :=
  if e.inFlight then (false, e)
  else if e.gainer = false then (false, e)
  else if e.mount = none then (false, e)
  else (true, { e with phase := none })

def clearOrphanedDrain (e : Entry β) : Bool × Entry β :=
  match e.phase with
  | some ⟨.draining, _⟩ => if e.mount = none then (true, { e with phase := none }) else (false, e)
  | _ => (false, e)

def installServing (closed : Bool) (b : Option β) (opened : Nat) (e : Entry β) :
    MountOutcome × Entry β :=
  if closed then (.superseded, e)
  else if e.loser then (.blockedByDrain, e)
  else
    let out := match e.phase with
      | none => MountOutcome.phaseResolved
      | some st =>
        match nextOnReady st opened with
        | .ok _ => .ready
        | .error _ => .phaseResolved
    (out, { e with openEpoch := some opened, mount := some b, phase := none })

def releaseDrained (e : Entry β) : Option β × Entry β :=
  match e.phase with
  | some ⟨.draining, gate⟩ =>
    match e.mount with
    | none | some none => (none, { e with phase := none })
    | some (some b) =>
      match nextOnRelease ⟨.draining, gate⟩ with
      | .error _ => (none, e)
      | .ok _ => (some b, { e with mount := none, openEpoch := none, phase := none })
  | _ => (none, e)

def startAcquire (closed : Bool) (e : Entry β) : Bool × Entry β :=
  if closed then (false, e)
  else if e.inFlight then (false, e)
  else (true, { e with inFlight := true })

def finishAcquire (e : Entry β) : Entry β := { e with inFlight := false }

def unmount (e : Entry β) : Entry β := { e with mount := none }

def forgetOpenEpoch (e : Entry β) : Entry β := { e with openEpoch := none }

def evictIfSame [DecidableEq β] (failed : Option β) (e : Entry β) : Bool × Entry β :=
  if e.loser then (false, e)
  else if e.mount = some failed then (true, { e with mount := none, openEpoch := none })
  else (false, e)

end Entry

structure Table (β : Type) where
  entry : ReplicaUnit → Entry β
  closed : Bool

namespace Table

variable {β : Type}

/-- `init`. -/
def empty : Table β := ⟨fun _ => .empty, false⟩

def set (t : Table β) (ru : ReplicaUnit) (e : Entry β) : Table β :=
  { t with entry := Function.update t.entry ru e }

/-- The methods of the table, and the shutdown flag being set. -/
inductive Op (β : Type) where
  /-- `setPhase` as the overlap acquire calls it. -/
  | setAcquiring (ru : ReplicaUnit)
  | armDrain (ru : ReplicaUnit) (gate : Nat)
  | reclaimDrain (ru : ReplicaUnit)
  | dropStuckGainerPhase (ru : ReplicaUnit)
  | clearOrphanedDrain (ru : ReplicaUnit)
  | installServing (ru : ReplicaUnit) (b : Option β) (opened : Nat)
  | releaseDrained (ru : ReplicaUnit)
  | startAcquire (ru : ReplicaUnit)
  | finishAcquire (ru : ReplicaUnit)
  | unmount (ru : ReplicaUnit)
  | forgetOpenEpoch (ru : ReplicaUnit)
  | evictIfSame (ru : ReplicaUnit) (failed : Option β)
  | takeAll
  | close

inductive Answer (β : Type) where
  | done
  | did (yes : Bool)
  | armed (b : Option (Option β))
  | released (b : Option β)
  | outcome (out : MountOutcome)
  /-- The positions that `takeAll` returns. -/
  | taken (positions : ReplicaUnit → Bool)

variable [DecidableEq β] (decorate : ReplicaUnit → Option β → Option β)

def step : Op β → Table β → Answer β × Table β
  | .setAcquiring ru, t => (.done, t.set ru ((t.entry ru).setPhase ⟨.acquiring, 0⟩))
  | .armDrain ru gate, t =>
    let (b, e) := (t.entry ru).armDrain gate
    (.armed b, t.set ru e)
  | .reclaimDrain ru, t => (.done, t.set ru (t.entry ru).reclaimDrain)
  | .dropStuckGainerPhase ru, t =>
    let (yes, e) := (t.entry ru).dropStuckGainerPhase
    (.did yes, t.set ru e)
  | .clearOrphanedDrain ru, t =>
    let (yes, e) := (t.entry ru).clearOrphanedDrain
    (.did yes, t.set ru e)
  | .installServing ru b opened, t =>
    let (out, e) := (t.entry ru).installServing t.closed (decorate ru b) opened
    (.outcome out, t.set ru e)
  | .releaseDrained ru, t =>
    let (b, e) := (t.entry ru).releaseDrained
    (.released b, t.set ru e)
  | .startAcquire ru, t =>
    let (yes, e) := (t.entry ru).startAcquire t.closed
    (.did yes, t.set ru e)
  | .finishAcquire ru, t => (.done, t.set ru (t.entry ru).finishAcquire)
  | .unmount ru, t => (.done, t.set ru (t.entry ru).unmount)
  | .forgetOpenEpoch ru, t => (.done, t.set ru (t.entry ru).forgetOpenEpoch)
  | .evictIfSame ru failed, t =>
    let (yes, e) := (t.entry ru).evictIfSame failed
    (.did yes, t.set ru e)
  | .takeAll, t =>
    (.taken fun ru => (t.entry ru).mount.isSome,
      { t with entry := fun ru => (t.entry ru).unmount })
  | .close, t => (.done, { t with closed := true })

def object : Transducer (Table β) (Op β) (Answer β) := ⟨step decorate⟩

end Table

namespace Entry

variable {β : Type} {e : Entry β}

def PhaseStored (e : Entry β) : Prop :=
  e.phase = none ∨ e.phase = some ⟨.acquiring, 0⟩ ∨ ∃ gate, e.phase = some ⟨.draining, gate⟩

def Draining (e : Entry β) : Prop := ∃ gate, e.phase = some ⟨.draining, gate⟩

theorem loser_of_draining (drains : e.Draining) : e.loser = true := by
  obtain ⟨gate, phase⟩ := drains
  simp [loser, phase, HandoffPhase.isLoser]

/-- Steps of an entry that neither arm nor release a drain, nor touch the in-flight slot. -/
inductive Plain (closed : Bool) (e : Entry β) : Entry β → Prop where
  | stay : Plain closed e e
  | acquire : Plain closed e (e.setPhase ⟨.acquiring, 0⟩)
  | settle : Plain closed e { e with phase := none }
  | install (b : Option β) (opened : Nat) (running : closed = false) (keeps : e.loser = false) :
      Plain closed e { e with openEpoch := some opened, mount := some b, phase := none }
  | drop (openEpoch : Option Nat) : Plain closed e { e with mount := none, openEpoch }
  | forget : Plain closed e e.forgetOpenEpoch

theorem armDrain_cases (gate : Nat) (e : Entry β) :
    e.armDrain gate = (none, e) ∨
      ∃ b, e.mount = some b ∧ e.phase = none ∧
        e.armDrain gate = (some b, { e with phase := some ⟨.draining, gate⟩ }) := by
  unfold armDrain
  split
  · exact .inl rfl
  case h_2 b mounted =>
    split_ifs with busy
    · exact .inl rfl
    · exact .inr ⟨b, mounted, not_not.mp busy, rfl⟩

theorem releaseDrained_cases (e : Entry β) :
    e.releaseDrained.1 = none ∧ (e.releaseDrained.2 = e ∨
        e.releaseDrained.2 = { e with phase := none }) ∨
      ∃ b, e.Draining ∧ e.mount = some (some b) ∧
        e.releaseDrained =
          (some b, { e with mount := none, openEpoch := none, phase := none }) := by
  unfold releaseDrained
  split
  case h_1 gate draining =>
    split
    · exact .inl ⟨rfl, .inr rfl⟩
    · exact .inl ⟨rfl, .inr rfl⟩
    case h_3 b mounted => exact .inr ⟨b, ⟨gate, draining⟩, mounted, rfl⟩
  case h_2 => exact .inl ⟨rfl, .inl rfl⟩

section

variable (closed : Bool)
include closed

theorem installServing_cases (b : Option β) (opened : Nat) (e : Entry β) :
    (e.installServing closed b opened).1.mounted = false ∧
        (e.installServing closed b opened).2 = e ∨
      (e.installServing closed b opened).1.mounted = true ∧ closed = false ∧ e.loser = false ∧
        (e.installServing closed b opened).2 =
          { e with openEpoch := some opened, mount := some b, phase := none } := by
  unfold installServing
  split_ifs with shut draining
  · exact .inl ⟨rfl, rfl⟩
  · exact .inl ⟨rfl, rfl⟩
  · refine .inr ⟨?_, by simpa using shut, by simpa using draining, rfl⟩
    cases e.phase with
    | none => rfl
    | some st =>
      simp only
      cases nextOnReady st opened <;> rfl

theorem startAcquire_cases (e : Entry β) :
    e.startAcquire closed = (false, e) ∨
      closed = false ∧ e.inFlight = false ∧
        e.startAcquire closed = (true, { e with inFlight := true }) := by
  unfold startAcquire
  split_ifs with shut busy
  · exact .inl rfl
  · exact .inl rfl
  · exact .inr ⟨by simpa using shut, by simpa using busy, rfl⟩

theorem plain_reclaimDrain (e : Entry β) : Plain closed e e.reclaimDrain := by
  unfold reclaimDrain
  split_ifs
  · exact .stay
  · exact .settle
  · exact .stay

theorem plain_dropStuckGainerPhase (e : Entry β) : Plain closed e e.dropStuckGainerPhase.2 := by
  unfold dropStuckGainerPhase
  split_ifs
  · exact .stay
  · exact .stay
  · exact .stay
  · exact .settle

theorem plain_clearOrphanedDrain (e : Entry β) : Plain closed e e.clearOrphanedDrain.2 := by
  unfold clearOrphanedDrain
  split
  · split_ifs
    · exact .settle
    · exact .stay
  · exact .stay

theorem plain_installServing (b : Option β) (opened : Nat) (e : Entry β) :
    Plain closed e (e.installServing closed b opened).2 := by
  rcases e.installServing_cases closed b opened with ⟨-, same⟩ | ⟨-, running, keeps, mounted⟩
  · rw [same]
    exact .stay
  · rw [mounted]
    exact .install b opened running keeps

theorem plain_evictIfSame [DecidableEq β] (failed : Option β) (e : Entry β) :
    Plain closed e (e.evictIfSame failed).2 := by
  unfold evictIfSame
  split_ifs
  · exact .stay
  · exact .drop none
  · exact .stay

end

namespace Plain

variable {closed : Bool} {after : Entry β}

theorem phaseStored (moved : e.Plain closed after) (stored : e.PhaseStored) :
    after.PhaseStored := by
  cases moved with
  | acquire => exact .inr (.inl rfl)
  | settle | install => exact .inl rfl
  | stay | drop | forget => exact stored

theorem draining (moved : e.Plain closed after) (drains : after.Draining) :
    e.Draining ∧ (after.mount = e.mount ∨ after.mount = none) := by
  cases moved with
  | acquire | settle | install =>
    obtain ⟨gate, phase⟩ := drains
    cases phase
  | drop => exact ⟨drains, .inr rfl⟩
  | stay | forget => exact ⟨drains, .inl rfl⟩

theorem mount_of_closed (moved : e.Plain true after) :
    after.mount = e.mount ∨ after.mount = none := by
  cases moved with
  | install b opened running => cases running
  | drop => exact .inr rfl
  | stay | acquire | settle | forget => exact .inl rfl

theorem inFlight (moved : e.Plain closed after) : after.inFlight = e.inFlight := by
  cases moved <;> rfl

end Plain

end Entry

namespace Table

variable {β : Type}

def armedAt (ru : ReplicaUnit) : Op β × Answer β → Option (Option β)
  | (.armDrain place _, .armed b) => if place = ru then b else none
  | _ => none

def releasedAt (ru : ReplicaUnit) : Op β × Answer β → Option β
  | (.releaseDrained place, .released b) => if place = ru then b else none
  | _ => none

def holderStep (ru : ReplicaUnit) (n : Nat) : Op β × Answer β → Nat
  | (.startAcquire place, .did true) => if place = ru then n + 1 else n
  | (.finishAcquire place, _) => if place = ru then 0 else n
  | _ => n

/-- What an operation and its answer say about the entries of one position. -/
inductive Moves (ru : ReplicaUnit) (event : Op β × Answer β) (closed : Bool) (e : Entry β) :
    Entry β → Prop where
  | plain {after : Entry β} (unarmed : armedAt ru event = none)
      (unreleased : releasedAt ru event = none) (held : ∀ n, holderStep ru n event = n)
      (moved : e.Plain closed after) : Moves ru event closed e after
  | arm (gate : Nat) (b : Option β) (armed : armedAt ru event = some b)
      (unreleased : releasedAt ru event = none) (held : ∀ n, holderStep ru n event = n)
      (mounted : e.mount = some b) (idle : e.phase = none) :
      Moves ru event closed e { e with phase := some ⟨.draining, gate⟩ }
  | release (b : β) (unarmed : armedAt ru event = none) (released : releasedAt ru event = some b)
      (held : ∀ n, holderStep ru n event = n) (drains : e.Draining)
      (mounted : e.mount = some (some b)) :
      Moves ru event closed e { e with mount := none, openEpoch := none, phase := none }
  | claim (called : event = (.startAcquire ru, .did true)) (running : closed = false)
      (free : e.inFlight = false) : Moves ru event closed e { e with inFlight := true }
  | finish (called : event = (.finishAcquire ru, .done)) : Moves ru event closed e e.finishAcquire

@[simp] theorem closed_set (t : Table β) (ru : ReplicaUnit) (e : Entry β) :
    (t.set ru e).closed = t.closed := rfl

@[simp] theorem entry_set_self (t : Table β) (ru : ReplicaUnit) (e : Entry β) :
    (t.set ru e).entry ru = e := Function.update_self ..

variable {place : ReplicaUnit} {b : Option β}

theorem entry_set_of_ne {t : Table β} {ru : ReplicaUnit} (apart : ru ≠ place) (e : Entry β) :
    (t.set place e).entry ru = t.entry ru := Function.update_of_ne apart ..

theorem moves_set {t : Table β} {ru : ReplicaUnit} {e : Entry β} {event : Op β × Answer β}
    (unarmed : armedAt ru event = none) (unreleased : releasedAt ru event = none)
    (held : ∀ n, holderStep ru n event = n) (moved : (t.entry place).Plain t.closed e) :
    Moves ru event t.closed (t.entry ru) ((t.set place e).entry ru) := by
  by_cases same : ru = place
  · subst same
    rw [entry_set_self]
    exact .plain unarmed unreleased held moved
  · rw [entry_set_of_ne same]
    exact .plain unarmed unreleased held .stay

variable [DecidableEq β] (decorate : ReplicaUnit → Option β → Option β)

theorem moves_step (op : Op β) (t : Table β) (ru : ReplicaUnit) :
    Moves ru (op, (step decorate op t).1) t.closed (t.entry ru)
      ((step decorate op t).2.entry ru) := by
  have kept : ∀ n : Nat, n = n := fun _ => rfl
  cases op with
  | setAcquiring place => exact moves_set rfl rfl kept .acquire
  | armDrain place gate =>
    by_cases same : ru = place
    · subst same
      simp only [step, entry_set_self]
      rcases (t.entry ru).armDrain_cases gate with refused | ⟨b, mounted, idle, armed⟩
      · rw [refused]
        exact .plain (by simp [armedAt]) rfl kept .stay
      · rw [armed]
        exact .arm gate b (by simp [armedAt]) rfl kept mounted idle
    · simp only [step, entry_set_of_ne same]
      exact .plain (by simp [armedAt, Ne.symm same]) rfl kept .stay
  | reclaimDrain place => exact moves_set rfl rfl kept (Entry.plain_reclaimDrain _ _)
  | dropStuckGainerPhase place =>
    exact moves_set rfl rfl kept (Entry.plain_dropStuckGainerPhase _ _)
  | clearOrphanedDrain place => exact moves_set rfl rfl kept (Entry.plain_clearOrphanedDrain _ _)
  | installServing place b opened =>
    exact moves_set rfl rfl kept (Entry.plain_installServing _ _ _ _)
  | releaseDrained place =>
    by_cases same : ru = place
    · subst same
      simp only [step, entry_set_self]
      rcases (t.entry ru).releaseDrained_cases with
        ⟨refused, after⟩ | ⟨b, drains, mounted, freed⟩
      · refine .plain rfl (by simp [releasedAt, refused]) kept ?_
        rcases after with same | settled
        · rw [same]
          exact .stay
        · rw [settled]
          exact .settle
      · rw [freed]
        exact .release b rfl (by simp [releasedAt]) kept drains mounted
    · simp only [step, entry_set_of_ne same]
      exact .plain rfl (by simp [releasedAt, Ne.symm same]) kept .stay
  | startAcquire place =>
    by_cases same : ru = place
    · subst same
      simp only [step, entry_set_self]
      rcases (t.entry ru).startAcquire_cases t.closed with refused | ⟨running, free, claimed⟩
      · rw [refused]
        exact .plain rfl rfl kept .stay
      · rw [claimed]
        exact .claim rfl running free
    · simp only [step, entry_set_of_ne same]
      refine .plain rfl rfl ?_ .stay
      intro n
      cases ((t.entry place).startAcquire t.closed).1 with
      | false => rfl
      | true => simp [holderStep, Ne.symm same]
  | finishAcquire place =>
    by_cases same : ru = place
    · subst same
      simp only [step, entry_set_self]
      exact .finish rfl
    · simp only [step, entry_set_of_ne same]
      exact .plain rfl rfl (fun n => by simp [holderStep, Ne.symm same]) .stay
  | unmount place => exact moves_set rfl rfl kept (.drop _)
  | forgetOpenEpoch place => exact moves_set rfl rfl kept .forget
  | evictIfSame place failed => exact moves_set rfl rfl kept (Entry.plain_evictIfSame _ _ _)
  | takeAll => exact .plain rfl rfl kept (.drop _)
  | close => exact .plain rfl rfl kept .stay

variable {decorate} {t : Table β} {ru : ReplicaUnit} {closed : Bool} {event : Op β × Answer β}
  {e after : Entry β}

omit [DecidableEq β] in
theorem Moves.phaseStored (moves : Moves ru event closed e after) (stored : e.PhaseStored) :
    after.PhaseStored := by
  cases moves with
  | plain _ _ _ moved => exact moved.phaseStored stored
  | arm gate => exact .inr (.inr ⟨gate, rfl⟩)
  | release => exact .inl rfl
  | claim | finish => exact stored

omit [DecidableEq β] in
theorem Moves.created (moves : Moves ru event closed e after) (drains : after.Draining)
    (new : ¬ e.Draining) : e.mount ≠ none ∧ e.phase = none := by
  cases moves with
  | plain _ _ _ moved => exact absurd (moved.draining drains).1 new
  | arm gate b _ _ _ mounted idle => exact ⟨by simp [mounted], idle⟩
  | release =>
    obtain ⟨gate, phase⟩ := drains
    cases phase
  | claim | finish => exact absurd drains new

omit [DecidableEq β] in
theorem Moves.mount_of_closed (moves : Moves ru event true e after) :
    after.mount = e.mount ∨ after.mount = none := by
  cases moves with
  | plain _ _ _ moved => exact moved.mount_of_closed
  | arm | claim | finish => exact .inl rfl
  | release => exact .inr rfl

theorem closed_step (op : Op β) (shut : t.closed = true) :
    (step decorate op t).2.closed = true := by
  cases op with
  | close => rfl
  | _ => exact shut

def ArmedWith (ru : ReplicaUnit) (b : Option β) (t : Table β) : Prop :=
  (t.entry ru).Draining → (t.entry ru).mount = none ∨ (t.entry ru).mount = some b

omit [DecidableEq β] in
theorem Moves.armedWith (moves : Moves ru event closed e after) (unarmed : armedAt ru event = none)
    (armed : e.Draining → e.mount = none ∨ e.mount = some b) :
    (releasedAt ru event).map some = none ∧
        (after.Draining → after.mount = none ∨ after.mount = some b) ∨
      (releasedAt ru event).map some = some b ∧ ¬ after.Draining := by
  cases moves with
  | plain _ unreleased _ moved =>
    refine .inl ⟨by rw [unreleased, Option.map_none], ?_⟩
    intro drains
    obtain ⟨before, kept | gone⟩ := moved.draining drains
    · rw [kept]
      exact armed before
    · exact .inl gone
  | arm _ _ arms => simp [unarmed] at arms
  | claim called | finish called => exact .inl ⟨by rw [called]; rfl, armed⟩
  | release freed _ released _ drains mounted =>
    refine .inr ⟨?_, ?_⟩
    · rcases armed drains with gone | same
      · simp [mounted] at gone
      · rw [mounted] at same
        rw [released, Option.map_some, Option.some.inj same]
    · rintro ⟨gate, phase⟩
      cases phase

omit [DecidableEq β] in
theorem Moves.disarmed (moves : Moves ru event closed e after)
    (unarmed : armedAt ru event = none) (idle : ¬ e.Draining) :
    (releasedAt ru event).map some = none ∧ ¬ after.Draining := by
  cases moves with
  | plain _ unreleased _ moved =>
    exact ⟨by rw [unreleased, Option.map_none], fun drains => idle (moved.draining drains).1⟩
  | arm _ _ arms => simp [unarmed] at arms
  | claim called | finish called => exact ⟨by rw [called]; rfl, idle⟩
  | release _ _ _ _ drains => exact absurd drains idle

variable {opened : Nat} {ops : List (Op β)}

theorem released_prefix (armed : t.ArmedWith ru b)
    (unarmed : ∀ event ∈ (object decorate).trace ops t, armedAt ru event = none) :
    (((object decorate).trace ops t).filterMap (releasedAt ru)).map some <+: [b] := by
  rw [List.map_filterMap]
  refine Transducer.filterMap_trace_prefix (ArmedWith ru b) (fun t => ¬ (t.entry ru).Draining)
    ?_ ?_ armed unarmed
  · intro op t armed once
    exact (moves_step decorate op t ru).armedWith once armed
  · intro op t idle once
    exact (moves_step decorate op t ru).disarmed once idle

theorem armedWith_of_armDrain {gate : Nat}
    (armed : (step decorate (.armDrain ru gate) t).1 = .armed (some b)) :
    (step decorate (.armDrain ru gate) t).2.ArmedWith ru b := by
  simp only [step, Answer.armed.injEq] at armed ⊢
  intro _
  rw [entry_set_self]
  rcases (t.entry ru).armDrain_cases gate with kept | ⟨backend, mounted, -, arms⟩
  · simp [kept] at armed
  · rw [arms] at armed ⊢
    cases armed
    exact .inr mounted

def held (ru : ReplicaUnit) (t : Table β) : Nat := if (t.entry ru).inFlight then 1 else 0

omit [DecidableEq β] in
theorem Moves.holderStep_eq (moves : Moves ru event closed e after) :
    holderStep ru (if e.inFlight then 1 else 0) event = if after.inFlight then 1 else 0 := by
  cases moves with
  | plain _ _ held moved => rw [held, moved.inFlight]
  | arm _ _ _ _ held | release _ _ _ held => rw [held]
  | claim called _ free => simp [called, holderStep, free]
  | finish called => simp [called, holderStep, Entry.finishAcquire]

theorem foldl_holderStep (ops : List (Op β)) (t : Table β) (ru : ReplicaUnit) :
    ((object decorate).trace ops t).foldl (holderStep ru) (t.held ru) =
      ((object decorate).run ops t).held ru :=
  Transducer.foldl_trace (fun op t => (moves_step decorate op t ru).holderStep_eq) ops t

theorem phaseStored_run (ops : List (Op β)) (ru : ReplicaUnit) :
    (((object decorate).run ops empty).entry ru).PhaseStored :=
  Transducer.run_invariant (fun t : Table β => (t.entry ru).PhaseStored)
    (fun op t stored => (moves_step decorate op t ru).phaseStored stored) ops (.inl rfl)

theorem mount_run_of_closed (ops : List (Op β)) (shut : t.closed = true) (ru : ReplicaUnit) :
    (((object decorate).run ops t).entry ru).mount = (t.entry ru).mount ∨
      (((object decorate).run ops t).entry ru).mount = none := by
  refine (Transducer.run_invariant (T := object decorate) (fun later : Table β =>
    later.closed = true ∧ ((later.entry ru).mount = (t.entry ru).mount ∨
      (later.entry ru).mount = none)) ?_ ops ⟨shut, .inl rfl⟩).2
  rintro op later ⟨closed, kept⟩
  refine ⟨closed_step op closed, ?_⟩
  have moved := moves_step decorate op later ru
  rw [closed] at moved
  rcases moved.mount_of_closed with same | gone
  · exact same ▸ kept
  · exact .inr gone

theorem installServing_of_draining (drains : (t.entry ru).Draining) (b : Option β)
    (opened : Nat) : (step decorate (.installServing ru b opened) t).2.entry ru = t.entry ru := by
  have loses := Entry.loser_of_draining drains
  simp only [step, entry_set_self, Entry.installServing, loses, ↓reduceIte]
  split <;> rfl

theorem evictIfSame_of_draining (drains : (t.entry ru).Draining) (failed : Option β) :
    (step decorate (.evictIfSame ru failed) t).2.entry ru = t.entry ru := by
  have loses := Entry.loser_of_draining drains
  simp [step, entry_set_self, Entry.evictIfSame, loses]

theorem of_installServing_mounted {out : MountOutcome}
    (answered : (step decorate (.installServing ru b opened) t).1 = .outcome out)
    (mounted : out.mounted = true) :
    (step decorate (.installServing ru b opened) t).2.entry ru =
      ⟨some (decorate ru b), none, (t.entry ru).inFlight, some opened⟩ := by
  simp only [step, Answer.outcome.injEq] at answered
  simp only [step, entry_set_self]
  rcases (t.entry ru).installServing_cases t.closed (decorate ru b) opened with
    ⟨refused, -⟩ | ⟨-, -, -, installed⟩
  · rw [answered, mounted] at refused
    cases refused
  · exact installed

theorem superseded_of_closed (shut : t.closed = true) {answer : Answer β}
    (called : (.installServing place b opened, answer) ∈ (object decorate).trace ops t) :
    answer = .outcome .superseded := by
  induction ops generalizing t with
  | nil => cases called
  | cons op rest ih =>
    rcases List.mem_cons.mp called with here | later
    · cases here
      simp [object, step, Entry.installServing, shut]
    · exact ih (closed_step op shut) later

structure HandoffLaws (decorate : ReplicaUnit → Option β → Option β) (ru : ReplicaUnit)
    (t : Table β) : Prop where
  /-- Only Acquiring and Draining are stored. -/
  stored : (t.entry ru).PhaseStored
  /-- A drain is created on a mounted position without a phase. -/
  created : ∀ op, ((step decorate op t).2.entry ru).Draining → ¬ (t.entry ru).Draining →
    (t.entry ru).mount ≠ none ∧ (t.entry ru).phase = none
  /-- Neither an install nor an eviction touches a draining position. -/
  shielded : (t.entry ru).Draining → ∀ b opened failed,
    (step decorate (.installServing ru b opened) t).2.entry ru = t.entry ru ∧
      (step decorate (.evictIfSame ru failed) t).2.entry ru = t.entry ru
  /-- Until the next drain is armed, at most one release succeeds, and it returns the backend
  that arming this one has returned. -/
  released : ∀ gate b rest, (step decorate (.armDrain ru gate) t).1 = .armed (some b) →
    (∀ event ∈ (object decorate).trace rest (step decorate (.armDrain ru gate) t).2,
      armedAt ru event = none) →
    (((object decorate).trace rest (step decorate (.armDrain ru gate) t).2).filterMap
        (releasedAt ru)).length ≤ 1 ∧
      ∀ freed ∈ ((object decorate).trace rest
        (step decorate (.armDrain ru gate) t).2).filterMap (releasedAt ru), b = some freed
  /-- An install that succeeds leaves its backend mounted, no phase and its own epoch. -/
  installed : ∀ b opened out,
    (step decorate (.installServing ru b opened) t).1 = .outcome out → out.mounted = true →
    (step decorate (.installServing ru b opened) t).2.entry ru =
      ⟨some (decorate ru b), none, (t.entry ru).inFlight, some opened⟩
  /-- Once the table is closed, mounts are removed only and every install is superseded. -/
  shut : t.closed = true → ∀ rest,
    ((((object decorate).run rest t).entry ru).mount = (t.entry ru).mount ∨
        (((object decorate).run rest t).entry ru).mount = none) ∧
      ∀ b opened answer,
        (.installServing ru b opened, answer) ∈ (object decorate).trace rest t →
          answer = .outcome .superseded

/-- **The handoff state machine of the mount table.** After any sequence of operations every
position keeps to the laws, and at most one caller holds its in-flight slot. -/
theorem mount_table_laws (decorate : ReplicaUnit → Option β → Option β) (ops : List (Op β))
    (ru : ReplicaUnit) :
    HandoffLaws decorate ru ((object decorate).run ops empty) ∧
      ((object decorate).trace ops empty).foldl (holderStep ru) 0 ≤ 1 := by
  refine ⟨?_, ?_⟩
  · constructor
    case stored => exact phaseStored_run ops ru
    case created =>
      intro op drains new
      exact (moves_step decorate op _ ru).created drains new
    case shielded =>
      intro drains b opened failed
      exact ⟨installServing_of_draining drains b opened, evictIfSame_of_draining drains failed⟩
    case released =>
      intro gate b rest armed unarmed
      have once := released_prefix (armedWith_of_armDrain armed) unarmed
      refine ⟨by simpa using once.length_le, ?_⟩
      intro freed member
      have listed : some freed ∈ [b] := once.subset (List.mem_map_of_mem member)
      exact (List.mem_singleton.mp listed).symm
    case installed =>
      intro b opened out answered mounted
      exact of_installServing_mounted answered mounted
    case shut =>
      intro shut rest
      exact ⟨mount_run_of_closed rest shut ru,
        fun b opened answer called => superseded_of_closed shut called⟩
  · change ((object decorate).trace ops empty).foldl (holderStep ru)
      (held ru (empty : Table β)) ≤ 1
    rw [foldl_holderStep, held]
    split <;> omega

end Table

end Shale.Handoff
