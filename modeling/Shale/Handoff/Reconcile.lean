import Shale.Foundation.Sweep
import Shale.Handoff.MountTable

/-!
# One overlap reconcile pass

`reconcileReplicaUnitsOverlap` compares the positions that a node has mounted with the ones it
owns now (`current`) and the ones it will own once every draining member has left (`pending`). It
makes four rounds over these lists: drains are reclaimed, positions are drained or released, and
those of `pending` and of `current` are acquired.

A pass sees the mounted positions as they were when it began, in no particular order. The
environment `Env` fixes which of its accesses to the store fail.
-/

namespace Shale.Handoff

/-- What a pass meets outside the mount table: whether the cluster is closing, the routing state,
how many replicas a unit is placed on, and for which positions reading the marker, reading the
durable epoch and writing the marker fail. -/
structure Env where
  closed : Bool
  gs : GenState
  replicas : GenUnit → Nat
  markerFails : ReplicaUnit → Bool
  durableFails : ReplicaUnit → Bool
  writeFails : ReplicaUnit → Bool

/-- The two desired sets, and the positions that were mounted when the pass began. -/
structure Pass where
  current : List ReplicaUnit
  pending : List ReplicaUnit
  mountedSet : ReplicaUnit → Bool

section Place

variable (env : Env) (pass : Pass) (ru : ReplicaUnit) (p : Place)

def ownOpenEpoch : Nat :=
  match p.slot.openEpoch with
  | some e => e
  | none => if env.durableFails ru then 0 else p.durable

def reclaimDrainingPosition : Place := { p with slot := p.slot.reclaimDrain }

def beginDrain : Place :=
  match p.slot.armDrain (ownOpenEpoch env ru p) with
  | some slot => { p with slot }
  | none => p

def releaseReplicaUnit : Place :=
  ({ p with slot := p.slot.unmount.forgetOpenEpoch } : Place).closeUnit

def publishServingMarker (epoch : Nat) : Place :=
  let epoch := if epoch = 0 then ownOpenEpoch env ru p else epoch
  if env.writeFails ru then p else p.writeServingMarker epoch

def finishStuckGainer : Place :=
  match p.slot.dropStuckGainerPhase with
  | none => p
  | some slot => publishServingMarker env ru { p with slot } (slot.openEpoch.getD 0)

def beginAcquire : Place := { p with slot := p.slot.setPhase ⟨.acquiring, 0⟩ }

def acquireReplicaUnitOverlap : Place :=
  match p.slot.startAcquire env.closed with
  | some slot => { p with slot }
  | none => p

def desiresUnitElsewhereUnmounted : Bool :=
  (pass.current ++ pass.pending).any fun cand =>
    cand.unit = ru.unit && cand ≠ ru && !pass.mountedSet cand

/-- No reshard is in flight, the position is of the live generation, and the unit's placement
still uses its index. -/
def placed (gs : GenState) (replicas : GenUnit → Nat) : Bool :=
  gs.nextCount.isNone && ru.unit.gen = gs.gen && ru.replica.toNat < replicas ru.unit

def heldForMissingSuccessorMarker : Bool :=
  if placed ru env.gs env.replicas = false then false
  else if env.markerFails ru then true
  else
    match p.marker with
    | none => false
    | some epoch => epoch ≤ ownOpenEpoch env ru p

def reclaimHalf : Place :=
  if ru ∈ pass.current ∧ ru ∈ pass.pending ∧ p.slot.loser = true then reclaimDrainingPosition p
  else p

def drainHalf : Place :=
  if ru ∈ pass.current then
    if ru ∈ pass.pending then p
    else if p.slot.phase ≠ none then p
    else beginDrain env ru p
  else if ru ∈ pass.pending then p
  else if p.slot.phase ≠ none then p
  else if desiresUnitElsewhereUnmounted pass ru then p
  else if heldForMissingSuccessorMarker env ru p then p
  else releaseReplicaUnit p

def acquireDesired : Place :=
  if pass.mountedSet ru then finishStuckGainer env ru p
  else if p.slot.loser then p
  else if p.slot.gainer then acquireReplicaUnitOverlap env p
  else acquireReplicaUnitOverlap env (beginAcquire p)

def pendingHalf : Place := if ru ∈ pass.current then p else acquireDesired env pass ru p

def currentHalf : Place := if ru ∉ pass.pending then p else acquireDesired env pass ru p

end Place

def snapshot (current pending : List ReplicaUnit) (cells : ReplicaUnit → Place) : Pass :=
  ⟨current, pending, fun ru => (cells ru).slot.mount.isSome⟩

def reconcileReplicaUnitsOverlap (env : Env) (current pending order : List ReplicaUnit)
    (cells : ReplicaUnit → Place) : ReplicaUnit → Place :=
  let pass := snapshot current pending cells
  let mounted := order.filter pass.mountedSet
  let reclaimed := sweep (reclaimHalf pass) mounted cells
  let drained := sweep (drainHalf env pass) mounted reclaimed
  let gained := sweep (pendingHalf env pass) pending drained
  sweep (currentHalf env pass) current gained

section Rounds

variable {env : Env} {pass pass' : Pass} {ru : ReplicaUnit} {p : Place}

@[simp] theorem publishServingMarker_slot (env : Env) (ru : ReplicaUnit) (p : Place)
    (epoch : Nat) : (publishServingMarker env ru p epoch).slot = p.slot := by
  unfold publishServingMarker
  split_ifs <;> rfl

@[simp] theorem publishServingMarker_handle (env : Env) (ru : ReplicaUnit) (p : Place)
    (epoch : Nat) : (publishServingMarker env ru p epoch).handle = p.handle := by
  unfold publishServingMarker
  split_ifs <;> rfl

theorem finishStuckGainer_cases (env : Env) (ru : ReplicaUnit) (p : Place) :
    finishStuckGainer env ru p = p ∨
      p.slot.gainer = true ∧ (finishStuckGainer env ru p).handle = p.handle ∧
        (finishStuckGainer env ru p).slot = { p.slot with phase := none } := by
  unfold finishStuckGainer
  split
  case h_1 => exact .inl rfl
  case h_2 slot dropped =>
    obtain ⟨-, gains, -, rfl⟩ := Slot.of_dropStuckGainerPhase dropped
    exact .inr ⟨gains, by simp, by simp⟩

theorem finishStuckGainer_of_not_gainer (settled : p.slot.gainer = false) :
    finishStuckGainer env ru p = p :=
  (finishStuckGainer_cases env ru p).resolve_right fun stuck => by simp [settled] at stuck

theorem acquireReplicaUnitOverlap_cases (env : Env) (p : Place) :
    acquireReplicaUnitOverlap env p = p ∧ (env.closed = true ∨ p.slot.inFlight = true) ∨
      acquireReplicaUnitOverlap env p = { p with slot := { p.slot with inFlight := true } } := by
  unfold acquireReplicaUnitOverlap Slot.startAcquire
  split_ifs with busy
  · exact .inl ⟨rfl, busy⟩
  · exact .inr rfl

theorem acquireReplicaUnitOverlap_idem (env : Env) (p : Place) :
    acquireReplicaUnitOverlap env (acquireReplicaUnitOverlap env p) =
      acquireReplicaUnitOverlap env p := by
  rcases acquireReplicaUnitOverlap_cases env p with ⟨same, -⟩ | started
  · rw [same, same]
  · rw [started]
    simp [acquireReplicaUnitOverlap, Slot.startAcquire]

theorem acquireDesired_cases (env : Env) (pass : Pass) (ru : ReplicaUnit) (p : Place) :
    acquireDesired env pass ru p = p ∨
      (pass.mountedSet ru = true ∧ p.slot.loser = false ∧
        (acquireDesired env pass ru p).handle = p.handle ∧
        (acquireDesired env pass ru p).slot = { p.slot with phase := none }) ∨
      (pass.mountedSet ru = false ∧ p.slot.loser = false ∧
        ∃ acquired : Place, acquired.slot.gainer = true ∧ acquired.slot.mount = p.slot.mount ∧
          acquired.handle = p.handle ∧
          acquireDesired env pass ru p = acquireReplicaUnitOverlap env acquired) := by
  unfold acquireDesired
  split_ifs with mounted losing gaining
  · rcases finishStuckGainer_cases env ru p with same | ⟨gains, handle, slot⟩
    · exact .inl same
    · exact .inr (.inl ⟨mounted, Slot.loser_of_gainer gains, handle, slot⟩)
  · exact .inl rfl
  · exact .inr (.inr ⟨by simpa using mounted, by simpa using losing, p, gaining, rfl, rfl, rfl⟩)
  · exact .inr (.inr ⟨by simpa using mounted, by simpa using losing, beginAcquire p,
      rfl, rfl, rfl, rfl⟩)

theorem acquireReplicaUnitOverlap_frame (env : Env) (p : Place) :
    (acquireReplicaUnitOverlap env p).slot.mount = p.slot.mount ∧
      (acquireReplicaUnitOverlap env p).handle = p.handle ∧
      (acquireReplicaUnitOverlap env p).slot.gainer = p.slot.gainer ∧
      (acquireReplicaUnitOverlap env p).slot.loser = p.slot.loser := by
  rcases acquireReplicaUnitOverlap_cases env p with ⟨same, -⟩ | started
  · simp [same]
  · simp [started, Slot.gainer, Slot.loser]

theorem acquireDesired_frame (env : Env) (pass : Pass) (ru : ReplicaUnit) (p : Place) :
    (acquireDesired env pass ru p).slot.mount = p.slot.mount ∧
      (acquireDesired env pass ru p).handle = p.handle ∧
      (acquireDesired env pass ru p).slot.loser = p.slot.loser ∧
      (p.slot.loser = true → acquireDesired env pass ru p = p) := by
  rcases acquireDesired_cases env pass ru p with
    same | ⟨-, keeps, handle, slot⟩ | ⟨-, keeps, acquired, gains, mount, handle, same⟩
  · simp [same]
  · rw [slot, handle, keeps]
    exact ⟨rfl, rfl, rfl, by simp⟩
  · obtain ⟨mount', handle', -, loses⟩ := acquireReplicaUnitOverlap_frame env acquired
    rw [same, mount', mount, handle', handle, loses, Slot.loser_of_gainer gains, keeps]
    exact ⟨rfl, rfl, rfl, by simp⟩

theorem acquireDesired_idem (same : pass'.mountedSet ru = pass.mountedSet ru) :
    acquireDesired env pass' ru (acquireDesired env pass ru p) = acquireDesired env pass ru p := by
  have again : ∀ q, acquireDesired env pass' ru q = acquireDesired env pass ru q := by
    intro q
    simp only [acquireDesired, same]
  rw [again]
  rcases acquireDesired_cases env pass ru p with
    kept | ⟨mounted, -, -, slot⟩ | ⟨unmounted, -, acquired, gains, -, -, started⟩
  · rw [kept, kept]
  · have settled : (acquireDesired env pass ru p).slot.gainer = false := by
      rw [slot]
      rfl
    rw [acquireDesired, if_pos mounted, finishStuckGainer_of_not_gainer settled]
  · obtain ⟨-, -, still, loses⟩ := acquireReplicaUnitOverlap_frame env acquired
    rw [started, acquireDesired, unmounted, loses, Slot.loser_of_gainer gains, still, gains]
    simp [acquireReplicaUnitOverlap_idem]

theorem beginDrain_cases (env : Env) (ru : ReplicaUnit) (p : Place) :
    beginDrain env ru p = p ∨ p.slot.phase = none ∧ ∃ gate,
      beginDrain env ru p = { p with slot := { p.slot with phase := some ⟨.draining, gate⟩ } } := by
  unfold beginDrain
  split
  case h_1 slot armed =>
    obtain ⟨-, settled, rfl⟩ := Slot.armDrain_eq_some_iff.mp armed
    exact .inr ⟨settled, _, rfl⟩
  case h_2 => exact .inl rfl

theorem drainHalf_cases (env : Env) (pass : Pass) (ru : ReplicaUnit) (p : Place) :
    drainHalf env pass ru p = p ∨
      p.slot.phase = none ∧ ru ∉ pass.pending ∧
        (ru ∈ pass.current ∧ (∃ gate, drainHalf env pass ru p =
            { p with slot := { p.slot with phase := some ⟨.draining, gate⟩ } }) ∨
          ru ∉ pass.current ∧ drainHalf env pass ru p = releaseReplicaUnit p) := by
  unfold drainHalf
  split_ifs with current pending busy pending busy elsewhere held
  · exact .inl rfl
  · exact .inl rfl
  · rcases beginDrain_cases env ru p with same | ⟨settled, armed⟩
    · exact .inl same
    · exact .inr ⟨settled, pending, .inl ⟨current, armed⟩⟩
  · exact .inl rfl
  · exact .inl rfl
  · exact .inl rfl
  · exact .inl rfl
  · exact .inr ⟨not_not.mp busy, pending, .inr ⟨current, rfl⟩⟩

theorem drainHalf_of_phase (busy : p.slot.phase ≠ none) : drainHalf env pass ru p = p :=
  (drainHalf_cases env pass ru p).resolve_right fun drains => busy drains.1

theorem drainHalf_idem (current : pass'.current = pass.current)
    (pending : pass'.pending = pass.pending)
    (elsewhere : desiresUnitElsewhereUnmounted pass' ru = desiresUnitElsewhereUnmounted pass ru) :
    drainHalf env pass' ru (drainHalf env pass ru p) = drainHalf env pass ru p := by
  have again : ∀ q, drainHalf env pass' ru q = drainHalf env pass ru q := by
    intro q
    simp only [drainHalf, current, pending, elsewhere]
  rw [again]
  rcases drainHalf_cases env pass ru p with same | ⟨-, -, ⟨-, gate, armed⟩ | ⟨left, released⟩⟩
  · rw [same, same]
  · rw [armed]
    exact drainHalf_of_phase (by simp)
  · rw [released]
    rcases drainHalf_cases env pass ru (releaseReplicaUnit p) with
      same | ⟨-, -, ⟨owned, -⟩ | ⟨-, twice⟩⟩
    · exact same
    · exact absurd owned left
    · rw [twice]
      rfl

theorem reclaimHalf_cases (pass : Pass) (ru : ReplicaUnit) (p : Place) :
    reclaimHalf pass ru p = p ∧
        (ru ∈ pass.current → ru ∈ pass.pending → p.slot.mount ≠ none → p.slot.loser = false) ∨
      ru ∈ pass.current ∧ ru ∈ pass.pending ∧ p.slot.loser = true ∧
        reclaimHalf pass ru p = { p with slot := { p.slot with phase := none } } := by
  unfold reclaimHalf
  split_ifs with draining
  · obtain ⟨current, pending, loses⟩ := draining
    by_cases unmounted : p.slot.mount = none
    · refine .inl ⟨?_, fun _ _ mounted => absurd unmounted mounted⟩
      simp [reclaimDrainingPosition, Slot.reclaimDrain, unmounted]
    · refine .inr ⟨current, pending, loses, ?_⟩
      simp [reclaimDrainingPosition, Slot.reclaimDrain, unmounted, loses]
  · refine .inl ⟨rfl, fun current pending _ => ?_⟩
    by_contra loses
    exact draining ⟨current, pending, by simpa using loses⟩

theorem reclaimHalf_of_not_loser (keeps : p.slot.loser = false) : reclaimHalf pass ru p = p := by
  simp [reclaimHalf, keeps]

theorem reclaimHalf_idem : reclaimHalf pass ru (reclaimHalf pass ru p) = reclaimHalf pass ru p := by
  rcases reclaimHalf_cases pass ru p with ⟨same, -⟩ | ⟨-, -, -, cleared⟩
  · rw [same, same]
  · rw [cleared]
    exact reclaimHalf_of_not_loser rfl

end Rounds

section Whole

variable {env : Env} {current pending order : List ReplicaUnit} {cells : ReplicaUnit → Place}
  {ru : ReplicaUnit}

theorem reconcile_apply (env : Env) (current pending order : List ReplicaUnit)
    (cells : ReplicaUnit → Place) (ru : ReplicaUnit) :
    reconcileReplicaUnitsOverlap env current pending order cells ru =
      let pass := snapshot current pending cells
      let visited := ru ∈ order.filter pass.mountedSet
      if ru ∈ pending then
        acquireDesired env pass ru (if visited then reclaimHalf pass ru (cells ru) else cells ru)
      else if visited then drainHalf env pass ru (cells ru)
      else cells ru := by
  simp only [reconcileReplicaUnitsOverlap]
  rw [sweep_apply, sweep_apply, sweep_apply, sweep_apply]
  · by_cases later : ru ∈ pending
    · by_cases now : ru ∈ current <;>
        simp [pendingHalf, currentHalf, drainHalf, snapshot, later, now]
    · simp [currentHalf, reclaimHalf, snapshot, later]
  · exact fun cell => reclaimHalf_idem
  · exact fun cell => drainHalf_idem rfl rfl rfl
  · intro cell
    simp only [pendingHalf]
    split_ifs
    · rfl
    · exact acquireDesired_idem rfl
  · intro cell
    simp only [currentHalf]
    split_ifs
    · exact acquireDesired_idem rfl
    · rfl

theorem desiresUnitElsewhereUnmounted_congr {cells' : ReplicaUnit → Place}
    (same : ∀ cand, cand ∈ current ∨ cand ∈ pending →
      (cells' cand).slot.mount = (cells cand).slot.mount) :
    desiresUnitElsewhereUnmounted (snapshot current pending cells') ru =
      desiresUnitElsewhereUnmounted (snapshot current pending cells) ru := by
  rw [Bool.eq_iff_iff]
  simp only [desiresUnitElsewhereUnmounted, List.any_eq_true]
  refine exists_congr fun cand => and_congr_right fun member => ?_
  simp only [snapshot, same cand (List.mem_append.mp member)]

theorem reconcile_of_pending (env : Env) (order : List ReplicaUnit) (later : ru ∈ pending) :
    ∃ q, reconcileReplicaUnitsOverlap env current pending order cells ru =
        acquireDesired env (snapshot current pending cells) ru q ∧
      (q = cells ru ∨ ru ∈ current ∧ (cells ru).slot.mount ≠ none ∧
        q = { cells ru with slot := { (cells ru).slot with phase := none } }) := by
  rw [reconcile_apply]
  simp only [later, if_true]
  split_ifs with visited
  · refine ⟨_, rfl, ?_⟩
    rcases reclaimHalf_cases (snapshot current pending cells) ru (cells ru) with
      ⟨same, -⟩ | ⟨now, -, -, cleared⟩
    · exact .inl same
    · refine .inr ⟨now, ?_, cleared⟩
      simpa [snapshot, Option.isSome_iff_ne_none] using (List.mem_filter.mp visited).2
  · exact ⟨_, rfl, .inl rfl⟩

theorem reconcile_of_not_pending (env : Env) (order : List ReplicaUnit) (never : ru ∉ pending) :
    reconcileReplicaUnitsOverlap env current pending order cells ru = cells ru ∨
      reconcileReplicaUnitsOverlap env current pending order cells ru =
        drainHalf env (snapshot current pending cells) ru (cells ru) := by
  rw [reconcile_apply]
  simp only [never, if_false]
  split_ifs
  · exact .inr rfl
  · exact .inl rfl

theorem reconcile_keeps_mount (kept : ru ∈ current ∨ ru ∈ pending ∨ (cells ru).slot.phase ≠ none) :
    (reconcileReplicaUnitsOverlap env current pending order cells ru).slot.mount =
        (cells ru).slot.mount ∧
      (reconcileReplicaUnitsOverlap env current pending order cells ru).handle =
        (cells ru).handle := by
  by_cases later : ru ∈ pending
  · obtain ⟨q, acquired, reclaimed⟩ := reconcile_of_pending env order later
    obtain ⟨mount, handle, -, -⟩ :=
      acquireDesired_frame env (snapshot current pending cells) ru q
    rw [acquired, mount, handle]
    rcases reclaimed with rfl | ⟨-, -, rfl⟩ <;> exact ⟨rfl, rfl⟩
  · rcases reconcile_of_not_pending env order later with same | drained
    · rw [same]
      exact ⟨rfl, rfl⟩
    rw [drained]
    rcases drainHalf_cases env (snapshot current pending cells) ru (cells ru) with
      same | ⟨settled, -, ⟨-, gate, armed⟩ | ⟨left, -⟩⟩
    · rw [same]
      exact ⟨rfl, rfl⟩
    · rw [armed]
      exact ⟨rfl, rfl⟩
    · rcases kept with now | now | busy
      · exact absurd now left
      · exact absurd now later
      · exact absurd settled busy

theorem reconcile_loser_of_pending (later : ru ∈ pending)
    (loses : (reconcileReplicaUnitsOverlap env current pending order cells ru).slot.loser = true) :
    (cells ru).slot.loser = true := by
  obtain ⟨q, acquired, reclaimed⟩ := reconcile_of_pending env order later
  rw [acquired, (acquireDesired_frame env _ ru q).2.2.1] at loses
  rcases reclaimed with rfl | ⟨-, -, rfl⟩
  · exact loses
  · cases loses

theorem reconcile_acquires (starts : (cells ru).slot.inFlight = false ∧
        (reconcileReplicaUnitsOverlap env current pending order cells ru).slot.inFlight = true ∨
      (cells ru).slot.gainer = false ∧
        (reconcileReplicaUnitsOverlap env current pending order cells ru).slot.gainer = true) :
    ru ∈ pending ∧ (cells ru).slot.loser = false := by
  by_cases later : ru ∈ pending
  · refine ⟨later, ?_⟩
    obtain ⟨q, acquired, reclaimed⟩ := reconcile_of_pending env order later
    rw [acquired] at starts
    rcases reclaimed with rfl | ⟨-, mounted, rfl⟩
    · cases loses : (cells ru).slot.loser with
      | false => rfl
      | true =>
        rw [(acquireDesired_frame env _ ru _).2.2.2 loses] at starts
        rcases starts with ⟨before, after⟩ | ⟨before, after⟩ <;> simp [before] at after
    · -- a reclaimed position is mounted and in no phase, so that the round leaves it
      rw [acquireDesired, if_pos (by simpa [snapshot, Option.isSome_iff_ne_none] using mounted),
        finishStuckGainer_of_not_gainer rfl] at starts
      rcases starts with ⟨before, after⟩ | ⟨-, after⟩
      · simp [before] at after
      · cases after
  · exfalso
    rcases reconcile_of_not_pending env order later with same | drained
    · rw [same] at starts
      rcases starts with ⟨before, after⟩ | ⟨before, after⟩ <;> simp [before] at after
    rw [drained] at starts
    rcases drainHalf_cases env (snapshot current pending cells) ru (cells ru) with
      same | ⟨settled, -, ⟨-, gate, armed⟩ | ⟨-, released⟩⟩
    · rw [same] at starts
      rcases starts with ⟨before, after⟩ | ⟨before, after⟩ <;> simp [before] at after
    · rw [armed] at starts
      rcases starts with ⟨before, after⟩ | ⟨-, after⟩
      · simp [before] at after
      · cases after
    · rw [released] at starts
      rcases starts with ⟨before, after⟩ | ⟨before, after⟩ <;>
        exact absurd (before.symm.trans after) (by simp)

theorem reconcile_clears (loses : (cells ru).slot.loser = true)
    (cleared : (reconcileReplicaUnitsOverlap env current pending order cells ru).slot.loser =
      false) : ru ∈ current ∧ ru ∈ pending := by
  have busy : (cells ru).slot.phase ≠ none := by
    intro settled
    simp [Slot.loser_of_none settled] at loses
  by_cases later : ru ∈ pending
  · obtain ⟨q, acquired, reclaimed⟩ := reconcile_of_pending env order later
    rcases reclaimed with rfl | ⟨now, -, -⟩
    · rw [acquired, (acquireDesired_frame env _ ru _).2.2.1, loses] at cleared
      cases cleared
    · exact ⟨now, later⟩
  · rcases reconcile_of_not_pending env order later with same | drained
    · rw [same, loses] at cleared
      cases cleared
    · rw [drained, drainHalf_of_phase busy, loses] at cleared
      cases cleared

theorem mem_mounted_iff {order : List ReplicaUnit} :
    ru ∈ order.filter (snapshot current pending cells).mountedSet ↔
      ru ∈ order ∧ (cells ru).slot.mount ≠ none := by
  simp [snapshot, Option.isSome_iff_ne_none]

theorem reconcile_reclaimed (listed : ru ∈ order) (mounted : (cells ru).slot.mount ≠ none)
    (now : ru ∈ current) (later : ru ∈ pending) :
    (reconcileReplicaUnitsOverlap env current pending order cells ru).slot.loser = false := by
  rw [reconcile_apply]
  simp only [later, if_true, mem_mounted_iff.mpr ⟨listed, mounted⟩]
  rw [(acquireDesired_frame env _ ru _).2.2.1]
  rcases reclaimHalf_cases (snapshot current pending cells) ru (cells ru) with
    ⟨same, keeps⟩ | ⟨-, -, -, cleared⟩
  · rw [same]
    exact keeps now later mounted
  · rw [cleared]
    rfl

theorem reconcile_mount (env : Env) (current pending order : List ReplicaUnit)
    (cells : ReplicaUnit → Place) (ru : ReplicaUnit) :
    (reconcileReplicaUnitsOverlap env current pending order cells ru).slot.mount =
        (cells ru).slot.mount ∨
      (reconcileReplicaUnitsOverlap env current pending order cells ru).slot.mount = none := by
  by_cases kept : ru ∈ current ∨ ru ∈ pending ∨ (cells ru).slot.phase ≠ none
  · exact .inl (reconcile_keeps_mount kept).1
  simp only [not_or] at kept
  rcases reconcile_of_not_pending env order kept.2.1 with same | drained
  · exact .inl (by rw [same])
  rw [drained]
  rcases drainHalf_cases env (snapshot current pending cells) ru (cells ru) with
    same | ⟨-, -, ⟨now, -⟩ | ⟨-, released⟩⟩
  · exact .inl (by rw [same])
  · exact absurd now kept.1
  · exact .inr (by rw [released]; rfl)

theorem reconcile_idem (covers : ∀ ru, (cells ru).slot.mount ≠ none → ru ∈ order)
    (order' : List ReplicaUnit) :
    reconcileReplicaUnitsOverlap env current pending order'
        (reconcileReplicaUnitsOverlap env current pending order cells) =
      reconcileReplicaUnitsOverlap env current pending order cells := by
  funext ru
  obtain ⟨after, passed⟩ :
      ∃ after, after = reconcileReplicaUnitsOverlap env current pending order cells := ⟨_, rfl⟩
  rw [← passed]
  have same : ∀ cand, cand ∈ current ∨ cand ∈ pending →
      (after cand).slot.mount = (cells cand).slot.mount := by
    intro cand desired
    rw [passed]
    exact (reconcile_keeps_mount (by tauto)).1
  have before : (after ru).slot.mount ≠ none → (cells ru).slot.mount ≠ none := by
    intro mounted
    rcases reconcile_mount env current pending order cells ru with kept | gone
    · rwa [← kept, ← passed]
    · exact absurd (passed ▸ gone) mounted
  rw [reconcile_apply]
  by_cases later : ru ∈ pending
  · -- the reclaim round of the second pass finds no drain
    have reclaimed : ru ∈ order'.filter (snapshot current pending after).mountedSet →
        reclaimHalf (snapshot current pending after) ru (after ru) = after ru := by
      intro visited
      have mounted := before (mem_mounted_iff.mp visited).2
      by_cases now : ru ∈ current
      · refine reclaimHalf_of_not_loser ?_
        rw [passed]
        exact reconcile_reclaimed (covers ru mounted) mounted now later
      · simp [reclaimHalf, snapshot, now]
    simp only [later, if_true]
    rw [ite_eq_right_iff.mpr reclaimed]
    obtain ⟨q, acquired, -⟩ := reconcile_of_pending env order later
    rw [← passed] at acquired
    rw [acquired]
    refine acquireDesired_idem ?_
    simp only [snapshot, same ru (.inr later)]
  · simp only [later, if_false]
    refine ite_eq_right_iff.mpr fun visited => ?_
    have mounted := before (mem_mounted_iff.mp visited).2
    have drained : after ru = drainHalf env (snapshot current pending cells) ru (cells ru) := by
      rw [passed, reconcile_apply]
      simp [later, mem_mounted_iff.mpr ⟨covers ru mounted, mounted⟩]
    rw [drained]
    exact drainHalf_idem rfl rfl (desiresUnitElsewhereUnmounted_congr same)

/-- A pass neither releases nor starts to drain a position of `pending`; it releases no position
of `current` and none in a phase of a handoff; it starts no acquire outside `pending` nor of a
position that is given up; it clears a drain only of a position in both sets; and a second pass
with the same sets changes nothing. -/
theorem overlap_pass_safe (covers : ∀ ru, (cells ru).slot.mount ≠ none → ru ∈ order) :
    let after := reconcileReplicaUnitsOverlap env current pending order cells
    (∀ ru ∈ pending, (after ru).slot.mount = (cells ru).slot.mount ∧
      (after ru).handle = (cells ru).handle ∧
      ((after ru).slot.loser = true → (cells ru).slot.loser = true)) ∧
    (∀ ru, ru ∈ current ∨ (cells ru).slot.phase ≠ none →
      (after ru).slot.mount = (cells ru).slot.mount ∧ (after ru).handle = (cells ru).handle) ∧
    (∀ ru, (cells ru).slot.inFlight = false ∧ (after ru).slot.inFlight = true ∨
        (cells ru).slot.gainer = false ∧ (after ru).slot.gainer = true →
      ru ∈ pending ∧ (cells ru).slot.loser = false) ∧
    (∀ ru, (cells ru).slot.loser = true → (after ru).slot.loser = false →
      ru ∈ current ∧ ru ∈ pending) ∧
    ∀ order', reconcileReplicaUnitsOverlap env current pending order' after = after := by
  refine ⟨fun ru later => ?_, fun ru kept => ?_, fun ru => reconcile_acquires,
    fun ru => reconcile_clears, reconcile_idem covers⟩
  · obtain ⟨mount, handle⟩ := reconcile_keeps_mount (.inr (.inl later))
    exact ⟨mount, handle, reconcile_loser_of_pending later⟩
  · exact reconcile_keeps_mount (kept.imp_right .inr)

end Whole

def position (i : UInt8) : ReplicaUnit := ⟨⟨0, 0⟩, i⟩

/-- No access fails, and a unit is placed on two replicas. -/
def calm : Env :=
  ⟨false, .steady 0 .one, fun _ => 2, fun _ => false,
    fun _ => false, fun _ => false⟩

def mountedFirst (ru : ReplicaUnit) : Place :=
  if ru = position 0 then ⟨⟨some 3, none, false, some 3⟩, some 3, 3, some 3⟩
  else ⟨.empty, none, 0, none⟩

theorem overlap_pass_safe_moves :
    let after := reconcileReplicaUnitsOverlap calm [position 0] [position 1] [position 0]
      mountedFirst
    ((after (position 0)).slot = ⟨some 3, some ⟨.draining, 3⟩, false, some 3⟩ ∧
      (after (position 1)).slot = ⟨none, some ⟨.acquiring, 0⟩, true, none⟩) ∧
    ∀ order', reconcileReplicaUnitsOverlap calm [position 0] [position 1] order' after = after := by
  refine ⟨by decide, ?_⟩
  refine (overlap_pass_safe fun ru mounted => ?_).2.2.2.2
  by_contra elsewhere
  have other : ru ≠ position 0 := by simpa using elsewhere
  simp [mountedFirst, other, Slot.empty] at mounted

end Shale.Handoff
