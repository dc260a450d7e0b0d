import Shale.Storage.Generation

/-!
# One position in a mount table

`mountTable` keeps, for each position, whether this node has it mounted, in which phase of a
handoff it is, whether an open of it is in flight and at which epoch this node opened it. Every
method works on the entries of one position under the table's lock, so a method is a function on
the entries of that position, its `Slot`.

A `Place` is a slot together with what the factory keeps of the same position: what this node's
handle holds open, and the durable epoch and the serving marker, which all nodes share. A backend
is identified by the epoch its handle was opened at, since no two opens of a position return the
same epoch.
-/

namespace Shale.Handoff

inductive HandoffPhase where
  | acquiring
  | ready
  | draining
  | releasing
deriving DecidableEq

namespace HandoffPhase

def name : HandoffPhase → String
  | acquiring => "Acquiring"
  | ready => "Ready"
  | draining => "Draining"
  | releasing => "Releasing"

def isGainer : HandoffPhase → Bool
  | acquiring | ready => true
  | draining | releasing => false

def isLoser : HandoffPhase → Bool
  | draining | releasing => true
  | acquiring | ready => false

end HandoffPhase

structure HandoffState where
  phase : HandoffPhase
  openEpoch : Nat
deriving DecidableEq

def errIllegalEdge (edge : String) (st : Option HandoffState) : String :=
  "storageunit: illegal handoff edge " ++ edge ++ " from phase " ++
    (st.map fun st => st.phase.name).getD "HandoffPhase(0)"

def nextOnReady (st : HandoffState) (openEpoch : Nat) : Except String HandoffState :=
  if st.phase = .acquiring then .ok ⟨.ready, openEpoch⟩
  else .error (errIllegalEdge "OnReady (Acquiring->Ready)" (some st))

def nextOnDrain : Option HandoffState → Except String HandoffState
  | none => .ok ⟨.draining, 0⟩
  | some st => .error (errIllegalEdge "OnDrain (Owned->Draining)" (some st))

def nextOnRelease (st : HandoffState) : Except String HandoffState :=
  if st.phase = .draining then .ok ⟨.releasing, st.openEpoch⟩
  else .error (errIllegalEdge "OnRelease (Draining->Releasing)" (some st))

def releasable (st : HandoffState) (ready : Bool) : Bool :=
  st.phase = .draining && ready

structure Slot where
  mount : Option Nat
  phase : Option HandoffState
  inFlight : Bool
  openEpoch : Option Nat
deriving DecidableEq

inductive MountOutcome where
  | superseded
  | blockedByDrain
  | phaseResolved
  | ready
deriving DecidableEq

def MountOutcome.mounted : MountOutcome → Bool
  | phaseResolved | ready => true
  | superseded | blockedByDrain => false

namespace Slot

def empty : Slot := ⟨none, none, false, none⟩

def gainer (s : Slot) : Bool := s.phase.any fun st => st.phase.isGainer

def loser (s : Slot) : Bool := s.phase.any fun st => st.phase.isLoser

def setPhase (st : HandoffState) (s : Slot) : Slot := { s with phase := some st }

def armDrain (gate : Nat) (s : Slot) : Option Slot :=
  if s.mount = none ∨ s.phase ≠ none then none
  else
    match nextOnDrain none with
    | .error _ => none
    | .ok next => some { s with phase := some { next with openEpoch := gate } }

def reclaimDrain (s : Slot) : Slot :=
  if s.mount = none then s
  else if s.loser then { s with phase := none }
  else s

def dropStuckGainerPhase (s : Slot) : Option Slot :=
  if s.inFlight then none
  else if s.gainer = false then none
  else if s.mount = none then none
  else some { s with phase := none }

def clearOrphanedDrain (s : Slot) : Option Slot :=
  match s.phase with
  | some ⟨.draining, _⟩ => if s.mount = none then some { s with phase := none } else none
  | _ => none

def installServing (closed : Bool) (opened : Nat) (s : Slot) : MountOutcome × Slot :=
  if closed then (.superseded, s)
  else if s.loser then (.blockedByDrain, s)
  else
    let out := match s.phase with
      | none => MountOutcome.phaseResolved
      | some st =>
        match nextOnReady st opened with
        | .ok _ => .ready
        | .error _ => .phaseResolved
    (out, { s with openEpoch := some opened, mount := some opened, phase := none })

def releaseDrained (s : Slot) : Bool × Slot :=
  match s.phase with
  | some ⟨.draining, gate⟩ =>
    if s.mount = none then (false, { s with phase := none })
    else
      match nextOnRelease ⟨.draining, gate⟩ with
      | .error _ => (false, s)
      | .ok _ => (true, { s with mount := none, openEpoch := none, phase := none })
  | _ => (false, s)

def startAcquire (closed : Bool) (s : Slot) : Option Slot :=
  if closed ∨ s.inFlight then none else some { s with inFlight := true }

def finishAcquire (s : Slot) : Slot := { s with inFlight := false }

def unmount (s : Slot) : Slot := { s with mount := none }

def forgetOpenEpoch (s : Slot) : Slot := { s with openEpoch := none }

/-- Drops the mount if it still is the backend that has failed. A draining position stays. -/
def evictIfSame (failed : Nat) (s : Slot) : Slot :=
  if s.loser then s
  else if s.mount = some failed then { s with mount := none, openEpoch := none }
  else s

/-! What a method has done. -/

variable {s s' : Slot} {gate opened failed : Nat} {closed : Bool} {st : HandoffState}

@[simp] theorem loser_of_none (absent : s.phase = none) : s.loser = false := by
  simp [loser, absent]

theorem phase_cases (s : Slot) :
    s.phase = none ∧ s.gainer = false ∧ s.loser = false ∨
      s.phase ≠ none ∧ (s.gainer = true ∧ s.loser = false ∨ s.gainer = false ∧ s.loser = true) := by
  cases here : s.phase with
  | none => simp [gainer, loser, here]
  | some st =>
    obtain ⟨phase, epoch⟩ := st
    cases phase <;> simp [gainer, loser, here, HandoffPhase.isGainer, HandoffPhase.isLoser]

theorem loser_of_gainer (gains : s.gainer = true) : s.loser = false := by
  rcases s.phase_cases with ⟨-, idle, -⟩ | ⟨-, ⟨-, keeps⟩ | ⟨idle, -⟩⟩
  · simp [gains] at idle
  · exact keeps
  · simp [gains] at idle

theorem armDrain_eq_some_iff : s.armDrain gate = some s' ↔
    s.mount ≠ none ∧ s.phase = none ∧ s' = { s with phase := some ⟨.draining, gate⟩ } := by
  simp only [armDrain, nextOnDrain, ite_eq_iff, reduceCtorEq, and_false, false_or, not_or,
    Option.some.injEq, not_not, and_assoc, ne_eq, @eq_comm _ s']

theorem of_dropStuckGainerPhase (dropped : s.dropStuckGainerPhase = some s') :
    s.inFlight = false ∧ s.gainer = true ∧ s.mount ≠ none ∧ s' = { s with phase := none } := by
  unfold dropStuckGainerPhase at dropped
  split_ifs at dropped with flying idle unmounted
  exact ⟨by simpa using flying, by simpa using idle, unmounted, (Option.some.inj dropped).symm⟩

theorem of_clearOrphanedDrain (cleared : s.clearOrphanedDrain = some s') :
    s.loser = true ∧ s.mount = none ∧ s' = { s with phase := none } := by
  unfold clearOrphanedDrain at cleared
  split at cleared
  case h_1 gate draining =>
    split_ifs at cleared with unmounted
    refine ⟨?_, unmounted, (Option.some.inj cleared).symm⟩
    simp [loser, draining, HandoffPhase.isLoser]
  case h_2 => cases cleared

theorem installServing_cases (closed : Bool) (opened : Nat) (s : Slot) :
    (s.installServing closed opened).1.mounted = false ∧ (s.installServing closed opened).2 = s ∨
      (s.installServing closed opened).1.mounted = true ∧ s.loser = false ∧
        (s.installServing closed opened).2 =
          { s with openEpoch := some opened, mount := some opened, phase := none } := by
  unfold installServing
  split_ifs with shut draining
  · exact .inl ⟨rfl, rfl⟩
  · exact .inl ⟨rfl, rfl⟩
  · refine .inr ⟨?_, by simpa using draining, rfl⟩
    cases s.phase with
    | none => rfl
    | some st =>
      simp only
      cases nextOnReady st opened <;> rfl

theorem releaseDrained_cases (s : Slot) :
    s.releaseDrained.1 = true ∧ s.mount ≠ none ∧ (∃ gate, s.phase = some ⟨.draining, gate⟩) ∧
        s.releaseDrained.2 = { s with mount := none, openEpoch := none, phase := none } ∨
      s.releaseDrained.1 = false ∧ (s.releaseDrained.2 = s ∨
        s.mount = none ∧ s.releaseDrained.2 = { s with phase := none }) := by
  unfold releaseDrained
  split
  case h_1 gate draining =>
    split_ifs with unmounted
    · exact .inr ⟨rfl, .inr ⟨unmounted, rfl⟩⟩
    · exact .inl ⟨rfl, unmounted, ⟨gate, draining⟩, rfl⟩
  case h_2 => exact .inr ⟨rfl, .inl rfl⟩

theorem of_startAcquire (claimed : s.startAcquire closed = some s') :
    s.inFlight = false ∧ s' = { s with inFlight := true } := by
  unfold startAcquire at claimed
  split_ifs at claimed with busy
  simp only [not_or, Bool.not_eq_true] at busy
  exact ⟨busy.2, (Option.some.inj claimed).symm⟩

theorem evictIfSame_cases (failed : Nat) (s : Slot) :
    s.evictIfSame failed = s ∨ s.loser = false ∧ s.mount = some failed ∧
      s.evictIfSame failed = { s with mount := none, openEpoch := none } := by
  unfold evictIfSame
  split_ifs with draining same
  · exact .inl rfl
  · exact .inr ⟨by simpa using draining, same, rfl⟩
  · exact .inl rfl

theorem reclaimDrain_cases (s : Slot) :
    s.reclaimDrain = s ∨
      s.mount ≠ none ∧ s.loser = true ∧ s.reclaimDrain = { s with phase := none } := by
  unfold reclaimDrain
  split_ifs with unmounted draining
  · exact .inl rfl
  · exact .inr ⟨unmounted, draining, rfl⟩
  · exact .inl rfl

end Slot

def acquireBaseEpoch : Nat := 1

structure Place where
  slot : Slot
  handle : Option Nat
  durable : Nat
  marker : Option Nat
deriving DecidableEq

namespace Place

def openUnit (intended : Nat) (p : Place) : Option (Nat × Place) :=
  match p.handle with
  | some _ => none
  | none =>
    let opened := max intended (p.durable + 1)
    some (opened, { p with handle := some opened, durable := opened })

def closeUnit (p : Place) : Place := { p with handle := none }

def writeServingMarker (epoch : Nat) (p : Place) : Place :=
  { p with marker := some (max epoch (p.marker.getD 0)) }

theorem of_openUnit {p p' : Place} {intended opened : Nat}
    (openedAt : p.openUnit intended = some (opened, p')) :
    p.handle = none ∧ p.durable < opened ∧
      p' = { p with handle := some opened, durable := opened } := by
  unfold openUnit at openedAt
  split at openedAt
  case h_1 => cases openedAt
  case h_2 free =>
    cases openedAt
    exact ⟨free, by omega, rfl⟩

end Place

end Shale.Handoff
