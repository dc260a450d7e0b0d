import Shale.Reshard.ParentAnchored

/-!
# What a split at one replica keeps

The invariant of `ParentAnchored.machine` behind "no acked write is lost". The durable
marker of a unit says where its keys live: in the old unit before it exists, in the
children from then on. The owner of a unit publishes the marker while it holds the pause
and the children are an exact image of the unit, so the marker moves no key's value. What
can go wrong is a write that resolves the old unit although the marker exists, which a
node does that restarted, or that took a published marker for a failed one; `careful`
excludes exactly that.
-/

namespace Shale.ParentAnchored

open List Machine

open Function (forall_update_iff update update_of_ne update_self)

open SingleNode (Request CallPhase copyTarget copyTarget_mod copyTarget_eq)

variable {c : Cluster} {s s' : State}

def careful (c : Cluster) (s : State) : Action → Bool
  | .stepCall i _ =>
    match s.calls[i]? with
    | some ⟨n, request, .locked _⟩ =>
      let unit := (s.view n).resolveGenUnit (c.hash request.key)
      !(unit.gen == c.gen && s.marker.contains unit.id)
    | _ => true
  | _ => true

def current (s : State) (key : Bytes) : Option Bytes :=
  match s.log key with
  | [] => s.before key
  | write :: _ => write.2

/-- Every old unit has its durable cut-over marker. -/
def AllMarked (c : Cluster) (s : State) : Prop := ∀ k < c.count.n, k ∈ s.marker

def MidView (c : Cluster) (gs : GenState) : Prop :=
  gs.gen = c.gen ∧ gs.count = c.count ∧ gs.nextCount = some c.next

def OwnsOld (c : Cluster) (n k : Nat) : Prop := c.owner (c.oldUnit k) = n ∧ k < c.count.n

def Targets (c : Cluster) (s : State) (n : Nat) (key : Bytes) (pause : Nat) (unit : GenUnit) :
    Prop :=
  (unit = c.parentOf key ∧ pause = unit.id ∧ (c.owner unit = n → unit.id ∉ s.marker)) ∨
    (unit = c.childOf key ∧ (c.parentOf key).id ∈ s.marker)

def CallInv (c : Cluster) (s : State) (call : Call) : Prop :=
  match call.phase with
  | .counted pause | .locked pause =>
    pause = (c.parentOf call.request.key).id ∨ (s.view call.node).gen = c.gen + 1
  | .resolved pause unit | .missed pause unit =>
    Targets c s call.node call.request.key pause unit
  | .bound pause unit _ =>
    Targets c s call.node call.request.key pause unit ∧
      (unit.gen = c.gen → c.owner unit = call.node)
  | .begun | .failed _ _ _ | .finishing _ _ | .returned _ => True

def DriverPhase.bisects : DriverPhase → Option Nat
  | checked unit _ | openedLow unit _ | opened unit _ | copying unit _ _ | paused unit _
  | clearingLow unit _ _ | clearingHigh unit _ _ | recopying unit _ _ => some unit
  | idle | driving _ | published _ _ | marking | retiring _ => none

def DriverPhase.units : DriverPhase → List Nat
  | idle | marking => []
  | driving todo | retiring todo => todo
  | checked unit todo | openedLow unit todo | opened unit todo | copying unit _ todo
  | paused unit todo | clearingLow unit _ todo | clearingHigh unit _ todo
  | recopying unit _ todo | published unit todo => unit :: todo

def KeysIn (s : State) (gu : GenUnit) (keys : List Bytes) : Prop :=
  ∀ key, key ∉ keys → (s.db gu).get key = none

def CopyAgrees (c : Cluster) (s : State) (k : Nat) (rest : List (Bytes × Bytes)) : Prop :=
  ∀ key, (c.parentOf key).id = k →
    (rest.lookup key).or ((s.db (c.childOf key)).get key) = (s.db (c.oldUnit k)).get key

/-- What the steps of a bisect or a finalize have established. -/
def Progress (c : Cluster) (s : State) : DriverPhase → Prop
  | .clearingLow k keys _ => KeysIn s (c.lowUnit k) keys
  | .clearingHigh k keys _ => KeysIn s (c.lowUnit k) [] ∧ KeysIn s (c.highUnit k) keys
  | .recopying k rest _ => CopyAgrees c s k rest ∧ (rest.map Prod.fst).Nodup
  | .published k _ => k ∈ s.marker
  | .marking | .retiring _ => AllMarked c s
  | .idle | .driving _ | .checked _ _ | .openedLow _ _ | .opened _ _ | .copying _ _ _
  | .paused _ _ => True

structure DriverInv (c : Cluster) (s : State) (n : Nat) (phase : DriverPhase) : Prop where
  mid : phase = .idle ∨ MidView c (s.view n)
  owned : ∀ k ∈ phase.units, OwnsOld c n k
  unmarked : ∀ k, phase.bisects = some k → k ∉ s.marker
  progress : Progress c s phase

structure ViewInv (c : Cluster) (s : State) (gs : GenState) : Prop where
  known : gs = GenState.steady c.gen c.count ∨ MidView c gs ∨
    gs = GenState.steady (c.gen + 1) c.next
  flipped : ∀ k ∈ gs.cutOver, k ∈ s.marker ∧ k < c.count.n
  advanced : gs.gen = c.gen + 1 → AllMarked c s

structure Inv (c : Cluster) (s : State) : Prop where
  views : ∀ n, ViewInv c s (s.view n)
  initMarker : s.advanced = true → AllMarked c s
  booting : ∀ n, s.process n = .booting true → AllMarked c s
  down : ∀ n, s.process n ≠ .serving → s.driver n = .idle ∧
    ∀ call ∈ s.calls, call.node = n → ∃ acked, call.phase = .returned acked
  mounted : ∀ n, ∀ gu ∈ s.mounts n, gu.gen = c.gen → OwnsOld c n gu.id
  inParent : ∀ key, (c.parentOf key).id ∉ s.marker →
    (s.db (c.parentOf key)).get key = current s key
  inChild : ∀ key, (c.parentOf key).id ∈ s.marker →
    (s.db (c.childOf key)).get key = current s key
  calls : ∀ call ∈ s.calls, CallInv c s call
  exclusive : ∀ n k, (s.driver n).writeLock = some k → s.hasReader n k = false
  driver : ∀ n, DriverInv c s n (s.driver n)

theorem DriverPhase.mem_units_of_bisects {phase : DriverPhase} {k : Nat}
    (bisects : phase.bisects = some k) : k ∈ phase.units := by
  cases phase <;> simp_all [DriverPhase.bisects, DriverPhase.units]

theorem DriverPhase.mem_units_of_writeLock {phase : DriverPhase} {k : Nat}
    (locked : phase.writeLock = some k) : k ∈ phase.units := by
  cases phase <;> simp_all [DriverPhase.writeLock, DriverPhase.units]

theorem childOf_mod (c : Cluster) (key : Bytes) :
    (c.childOf key).id % c.count.n = (c.parentOf key).id :=
  unitForHash_mod_of_double c.twice (c.hash key)

theorem parentOf_eq_oldUnit {k : Nat} {key : Bytes} (own : (c.parentOf key).id = k) :
    c.parentOf key = c.oldUnit k := by
  subst own
  rfl

theorem low_mod {k : Nat} (inRange : k < c.count.n) : (c.lowUnit k).id % c.count.n = k :=
  Nat.mod_eq_of_lt inRange

theorem high_mod {k : Nat} (inRange : k < c.count.n) : (c.highUnit k).id % c.count.n = k := by
  simp only [Cluster.highUnit, Nat.add_mod_right]
  exact Nat.mod_eq_of_lt inRange

theorem childOf_eq {k : Nat} {key : Bytes} (own : (c.parentOf key).id = k) :
    c.childOf key = c.lowUnit k ∨ c.childOf key = c.highUnit k := by
  subst own
  rcases unitForHash_double_mem_childUnits c.twice (c.hash key) with low | high
  · left
    simp only [Cluster.childOf, Cluster.lowUnit, low, Cluster.parentOf]
  · right
    simp only [Cluster.childOf, Cluster.highUnit, high, Cluster.parentOf]

theorem child_ne_oldUnit {gu : GenUnit} (ahead : gu.gen = c.gen + 1) (k : Nat) :
    c.oldUnit k ≠ gu := by
  rintro rfl
  simp [Cluster.oldUnit] at ahead

theorem ViewInv.mono {gs : GenState} (inv : ViewInv c s gs)
    (marker : ∀ k ∈ s.marker, k ∈ s'.marker) : ViewInv c s' gs where
  known := inv.known
  flipped := fun k member => ⟨marker k (inv.flipped k member).1, (inv.flipped k member).2⟩
  advanced := fun ahead k below => marker k (inv.advanced ahead k below)

theorem DriverInv.withDb {n : Nat} {phase : DriverPhase} (inv : DriverInv c s n phase)
    (view : s'.view n = s.view n) (marker : s'.marker = s.marker)
    (source : ∀ k, phase.writeLock = some k → s'.db (c.oldUnit k) = s.db (c.oldUnit k))
    (children : ∀ k, phase.bisects = some k → ∀ gu : GenUnit, gu.gen = c.gen + 1 →
      gu.id % c.count.n = k → s'.db gu = s.db gu) : DriverInv c s' n phase := by
  obtain ⟨mid, owned, unmarked, progress⟩ := inv
  refine ⟨view ▸ mid, owned, marker ▸ unmarked, ?_⟩
  cases phase with
  | clearingLow k keys todo =>
    have inRange := (owned k (by simp [DriverPhase.units])).2
    intro key absent
    rw [children k rfl (c.lowUnit k) rfl (low_mod inRange)]
    exact progress key absent
  | clearingHigh k keys todo =>
    have inRange := (owned k (by simp [DriverPhase.units])).2
    refine ⟨fun key absent => ?_, fun key absent => ?_⟩
    · rw [children k rfl (c.lowUnit k) rfl (low_mod inRange)]
      exact progress.1 key absent
    · rw [children k rfl (c.highUnit k) rfl (high_mod inRange)]
      exact progress.2 key absent
  | recopying k rest todo =>
    refine ⟨fun key own => ?_, progress.2⟩
    rw [source k rfl, children k rfl (c.childOf key) rfl ((childOf_mod c key).trans own)]
    exact progress.1 key own
  | published k todo =>
    change k ∈ s'.marker
    rw [marker]
    exact progress
  | marking | retiring todo => exact fun k below => marker ▸ progress k below
  | _ => trivial

theorem DriverInv.congr {n : Nat} {phase : DriverPhase} (inv : DriverInv c s n phase)
    (view : s'.view n = s.view n) (db : s'.db = s.db) (marker : s'.marker = s.marker) :
    DriverInv c s' n phase :=
  inv.withDb view marker (fun _ _ => by rw [db]) (fun _ _ _ _ _ => by rw [db])

theorem State.hasReader_eq_false {n k : Nat} : s.hasReader n k = false ↔
    ∀ call ∈ s.calls, call.node = n → call.phase.readLock ≠ some k := by
  simp [State.hasReader]

section

variable (inv : Inv c s)
include inv

theorem Inv.turn {n : Nat} {phase : DriverPhase} {db : GenUnit → Store Bytes} {marker : List Nat}
    (up : s.process n = .serving) (more : ∀ k ∈ s.marker, k ∈ marker)
    (inParent : ∀ key, (c.parentOf key).id ∉ marker → (db (c.parentOf key)).get key = current s key)
    (inChild : ∀ key, (c.parentOf key).id ∈ marker → (db (c.childOf key)).get key = current s key)
    (calls : ∀ call ∈ s.calls, CallInv c { s with db, marker } call)
    (others : ∀ m, m ≠ n → DriverInv c { s with db, marker } m (s.driver m))
    (now : DriverInv c { s with db, marker } n phase)
    (free : ∀ k, phase.writeLock = some k → s.hasReader n k = false) :
    Inv c ({ s with db, marker }.setDriver n phase) where
  views := fun m => (inv.views m).mono more
  initMarker := fun advanced k below => more k (inv.initMarker advanced k below)
  booting := fun m booted k below => more k (inv.booting m booted k below)
  down := by
    intro m off
    have apart : m ≠ n := by
      rintro rfl
      exact off up
    simpa [State.setDriver, update_of_ne apart] using inv.down m off
  mounted := inv.mounted
  inParent := inParent
  inChild := inChild
  calls := calls
  exclusive := (forall_update_iff s.driver fun m phase =>
    ∀ k, phase.writeLock = some k → s.hasReader m k = false).mpr
      ⟨free, fun m _ => inv.exclusive m⟩
  driver := (forall_update_iff s.driver fun m phase => DriverInv c _ m phase).mpr
    ⟨now.congr rfl rfl rfl, fun m apart => (others m apart).congr rfl rfl rfl⟩

theorem Inv.setDriver {n : Nat} {phase : DriverPhase} (up : s.process n = .serving)
    (now : DriverInv c s n phase) (free : ∀ k, phase.writeLock = some k → s.hasReader n k = false) :
    Inv c (s.setDriver n phase) :=
  inv.turn up (fun _ => id) inv.inParent inv.inChild inv.calls (fun m _ => inv.driver m) now free

theorem Inv.withMounts {mounts : Nat → AList fun _ : GenUnit => Nat} {handles : Nat}
    (owned : ∀ n, ∀ gu ∈ mounts n, gu.gen = c.gen → OwnsOld c n gu.id) :
    Inv c { s with mounts, handles } :=
  { inv with
    views := fun m => (inv.views m).mono fun _ => id
    mounted := owned
    driver := fun m => (inv.driver m).congr rfl rfl rfl }

theorem Inv.unmount (n : Nat) (gu : GenUnit) : Inv c (s.unmount n gu) := by
  refine inv.withMounts ((forall_update_iff s.mounts fun n mounts =>
    ∀ gu ∈ mounts, gu.gen = c.gen → OwnsOld c n gu.id).mpr ⟨?_, fun m _ => inv.mounted m⟩)
  exact fun other present => inv.mounted n other (AList.mem_erase.mp present).2

theorem Inv.evictIfSame (n : Nat) (gu : GenUnit) (handle : Nat) :
    Inv c (s.evictIfSame n gu handle) := by
  unfold State.evictIfSame
  split
  · exact inv.unmount n gu
  · exact inv

theorem Inv.mountFresh {n : Nat} {gu : GenUnit} (owned : gu.gen = c.gen → OwnsOld c n gu.id) :
    Inv c (s.mountFresh n gu) := by
  refine inv.withMounts ((forall_update_iff s.mounts fun n mounts =>
    ∀ gu ∈ mounts, gu.gen = c.gen → OwnsOld c n gu.id).mpr ⟨?_, fun m _ => inv.mounted m⟩)
  intro other present old
  rcases (AList.mem_insert _).mp present with rfl | before
  · exact owned old
  · exact inv.mounted n other before old

end

theorem mountChild_eq (s : State) (n : Nat) (gu : GenUnit) :
    ∃ mounts handles, s.mountChild n gu = { s with mounts, handles } := by
  unfold State.mountChild
  split
  · exact ⟨s.mounts, s.handles, rfl⟩
  · exact ⟨_, _, rfl⟩

theorem Inv.mountChild (inv : Inv c s) (n : Nat) {gu : GenUnit} (ahead : gu.gen = c.gen + 1) :
    Inv c (s.mountChild n gu) := by
  unfold State.mountChild
  split
  · exact inv
  · exact inv.mountFresh fun old => absurd (old.symm.trans ahead) (by omega)

theorem Inv.setView (inv : Inv c s) {n : Nat} {gs : GenState} (now : ViewInv c s gs)
    (calls : ∀ call ∈ s.calls, call.node = n → CallInv c (s.setView n gs) call)
    (driver : s.driver n = .idle ∨ MidView c gs) : Inv c (s.setView n gs) :=
  { inv with
    views := (forall_update_iff s.view fun _ gs => ViewInv c _ gs).mpr
      ⟨now.mono fun _ => id, fun m _ => (inv.views m).mono fun _ => id⟩
    calls := by
      intro call mem
      by_cases same : call.node = n
      · exact calls call mem same
      · have before := inv.calls call mem
        unfold CallInv at before ⊢
        rw [show (s.setView n gs).view call.node = s.view call.node from update_of_ne same _ _]
        exact before
    driver := by
      intro m
      by_cases same : m = n
      · subst same
        obtain ⟨-, owned, unmarked, progress⟩ := inv.driver m
        refine ⟨?_, owned, unmarked, progress⟩
        simpa only [State.setView, update_self] using driver
      · exact (inv.driver m).congr (update_of_ne same _ _) rfl rfl }

theorem CallInv.setView {call : Call} {n : Nat} {gs : GenState} (inv : CallInv c s call)
    (here : call.node = n) (forward : (s.view n).gen = c.gen + 1 → gs.gen = c.gen + 1) :
    CallInv c (s.setView n gs) call := by
  have view : (s.setView n gs).view call.node = gs := by
    subst here
    simp [State.setView]
  unfold CallInv at inv ⊢
  rw [view]
  cases phase : call.phase <;> simp only [phase] at inv ⊢
  case counted | locked => exact inv.imp_right (here ▸ forward)
  case resolved => exact inv
  case missed => exact inv
  case bound => exact inv

theorem Inv.setPhase (inv : Inv c s) {i : Nat} {call : Call} {phase : CallPhase}
    (found : s.calls[i]? = some call) (active : ∀ acked, call.phase ≠ .returned acked)
    (now : CallInv c s { call with phase })
    (lock : ∀ k, phase.readLock = some k → call.phase.readLock = some k ∨
      (s.driver call.node).writeLock ≠ some k) : Inv c (s.setPhase i call phase) :=
  { inv with
    views := fun m => (inv.views m).mono fun _ => id
    down := by
      intro m off
      obtain ⟨idle, ended⟩ := inv.down m off
      refine ⟨idle, ?_⟩
      intro other mem here
      rcases mem_or_eq_of_mem_set mem with old | rfl
      · exact ended other old here
      · obtain ⟨acked, returned⟩ := ended call (mem_of_getElem? found) here
        exact absurd returned (active acked)
    calls := by
      intro other mem
      rcases mem_or_eq_of_mem_set mem with old | rfl
      · exact inv.calls other old
      · exact now
    exclusive := by
      intro m k locked
      have free := State.hasReader_eq_false.mp (inv.exclusive m k locked)
      refine State.hasReader_eq_false.mpr fun other mem here holds => ?_
      rcases mem_or_eq_of_mem_set mem with old | rfl
      · exact free other old here holds
      · subst here
        rcases lock k holds with held | unlocked
        · exact free call (mem_of_getElem? found) rfl held
        · exact unlocked locked
    driver := fun m => (inv.driver m).congr rfl rfl rfl }

theorem current_applyWrite (s : State) (i : Nat) (gu : GenUnit) (request : Request)
    (key : Bytes) : current (s.applyWrite i gu request) key =
      if key = request.key then request.effect else current s key := by
  unfold current State.applyWrite
  by_cases same : key = request.key
  · subst same
    simp
  · simp only [update_of_ne same, same, ↓reduceIte]
    rfl

theorem get_applyWrite (s : State) (i : Nat) (gu other : GenUnit) (request : Request)
    (key : Bytes) : ((s.applyWrite i gu request).db other).get key =
      if other = gu ∧ key = request.key then request.effect else (s.db other).get key := by
  unfold State.applyWrite State.setDb
  by_cases unit : other = gu
  · subst unit
    by_cases same : key = request.key
    · subst same
      simp
    · simp [Store.get_write_of_ne same, same]
  · simp [unit]

section

variable (inv : Inv c s)
include inv

theorem Inv.driver_applyWrite {call : Call} (mem : call ∈ s.calls) {pause handle : Nat}
    {unit : GenUnit} (bound : call.phase = .bound pause unit handle) (i m : Nat) :
    DriverInv c (s.applyWrite i unit call.request) m (s.driver m) := by
  have own := inv.calls call mem
  simp only [CallInv, bound] at own
  have working := inv.driver m
  refine working.withDb rfl rfl ?_ ?_
  · intro k locked
    apply update_of_ne
    rintro rfl
    rcases own.1 with ⟨-, paused, -⟩ | ⟨ahead, -⟩
    · -- the call is a reader of the pause the driver holds
      have held := working.owned k (DriverPhase.mem_units_of_writeLock locked)
      have here := (own.2 rfl).symm.trans held.1
      have free := State.hasReader_eq_false.mp (inv.exclusive m k locked)
      exact free call mem here (by rw [bound, paused]; rfl)
    · exact child_ne_oldUnit (c := c) rfl k ahead
  · intro k bisects gu ahead within
    apply update_of_ne
    rintro rfl
    rcases own.1 with ⟨old, -⟩ | ⟨rfl, marked⟩
    · rw [old] at ahead
      simp [Cluster.parentOf] at ahead
    · rw [childOf_mod] at within
      exact working.unmarked k bisects (within ▸ marked)

theorem Inv.applyWrite {call : Call} (mem : call ∈ s.calls) {pause handle : Nat} {unit : GenUnit}
    (bound : call.phase = .bound pause unit handle) (i : Nat) :
    Inv c (s.applyWrite i unit call.request) := by
  have own := inv.calls call mem
  simp only [CallInv, bound] at own
  refine { inv with
    views := fun m => (inv.views m).mono fun _ => id
    inParent := fun key unmarked => ?_
    inChild := fun key marked => ?_
    driver := fun m => inv.driver_applyWrite mem bound i m }
  · have before := inv.inParent key unmarked
    rw [current_applyWrite, get_applyWrite]
    by_cases same : key = call.request.key
    · subst same
      rcases own.1 with ⟨rfl, -⟩ | ⟨-, marked⟩
      · simp
      · exact absurd marked unmarked
    · simpa [same] using before
  · have before := inv.inChild key marked
    rw [current_applyWrite, get_applyWrite]
    by_cases same : key = call.request.key
    · subst same
      rcases own.1 with ⟨rfl, -, unmarked⟩ | ⟨rfl, -⟩
      · exact absurd marked (unmarked (own.2 rfl))
      · simp
    · simpa [same] using before

theorem Inv.targets_resolve {call : Call} (mem : call ∈ s.calls) {pause : Nat}
    (locked : call.phase = .locked pause)
    (safe : ((s.view call.node).resolveGenUnit (c.hash call.request.key)).gen = c.gen →
      ((s.view call.node).resolveGenUnit (c.hash call.request.key)).id ∉ s.marker) :
    Targets c s call.node call.request.key pause
      ((s.view call.node).resolveGenUnit (c.hash call.request.key)) := by
  have own := inv.calls call mem
  simp only [CallInv, locked] at own
  obtain ⟨known, flipped, advanced⟩ := inv.views call.node
  have below : (c.parentOf call.request.key).id < c.count.n := unitForHash_lt _ _
  rcases known with steady | mid | ahead
  · rw [steady, GenState.resolveGenUnit_steady] at safe ⊢
    refine .inl ⟨rfl, ?_, fun _ => safe rfl⟩
    rcases own with counted | later
    · exact counted
    · rw [steady] at later
      exact absurd later (by simp [GenState.steady])
  · obtain ⟨gen, count, entered⟩ := mid
    by_cases moved : (c.parentOf call.request.key).id ∈ (s.view call.node).cutOver
    · right
      rw [GenState.resolveGenUnit_next (by rw [count]; exact moved) entered, gen]
      exact ⟨rfl, (flipped _ moved).1⟩
    · left
      rw [GenState.resolveGenUnit_old (by rw [count]; exact moved), gen, count] at safe ⊢
      refine ⟨rfl, ?_, fun _ => safe rfl⟩
      rcases own with counted | later
      · exact counted
      · rw [gen] at later
        omega
  · right
    have marked := advanced (by rw [ahead]; rfl)
    rw [ahead, GenState.resolveGenUnit_steady]
    exact ⟨rfl, marked _ below⟩

theorem Inv.owner_of_lookup {n handle : Nat} {unit : GenUnit}
    (mounted : (s.mounts n).lookup unit = some handle) (old : unit.gen = c.gen) :
    c.owner unit = n := by
  have present : unit ∈ s.mounts n := AList.lookup_isSome.mp (by simp [mounted])
  have owned := (inv.mounted n unit present old).1
  simpa [Cluster.oldUnit, ← old] using owned

theorem callStep_inv {i : Nat} {outcome : Outcome} (safe : careful c s (.stepCall i outcome) = true)
    (stepped : callStep c i outcome s = some s') : Inv c s' := by
  unfold callStep at stepped
  cases found : s.calls[i]? with
  | none => simp [found] at stepped
  | some call =>
    obtain ⟨n, request, phase⟩ := call
    have member := mem_of_getElem? found
    have own := inv.calls _ member
    simp only [found] at stepped
    cases phase with
    | begun =>
      cases stepped
      refine inv.setPhase found nofun ?_ nofun
      rcases (inv.views n).known with steady | mid | ahead
      · left
        simp only [steady]
        rfl
      · left
        simp only [mid.2.1]
        rfl
      · right
        simp only [ahead]
        rfl
    | counted pause =>
      simp only at stepped
      split at stepped
      case isTrue => cases stepped
      case isFalse unlocked =>
        cases stepped
        refine inv.setPhase found nofun own fun k holds => .inr ?_
        cases holds
        exact unlocked
    | locked pause =>
      cases stepped
      refine inv.setPhase found nofun (inv.targets_resolve member rfl ?_) fun _ => .inl
      simpa [careful, found, imp_iff_not_or] using safe
    | resolved pause unit =>
      simp only at stepped
      split at stepped
      case h_1 handle mounted =>
        cases stepped
        exact inv.setPhase found nofun ⟨own, inv.owner_of_lookup mounted⟩ fun _ => .inl
      case h_2 =>
        cases stepped
        exact inv.setPhase found nofun own fun _ => .inl
    | missed pause unit =>
      simp only at stepped
      split at stepped
      case h_1 handle mounted =>
        cases stepped
        exact inv.setPhase found nofun ⟨own, inv.owner_of_lookup mounted⟩ fun _ => .inl
      case h_2 =>
        cases stepped
        exact inv.setPhase found nofun trivial fun _ => .inl
    | bound pause unit handle =>
      simp only at stepped
      have applied := inv.applyWrite member rfl i
      split at stepped
      case h_1 | h_2 =>
        cases stepped
        exact applied.setPhase found nofun trivial fun _ => .inl
      case h_3 =>
        cases stepped
        exact inv.setPhase found nofun trivial fun _ => .inl
    | failed pause unit handle =>
      cases stepped
      have calls : (s.evictIfSame n unit handle).calls = s.calls := by
        unfold State.evictIfSame
        split <;> rfl
      exact (inv.evictIfSame n unit handle).setPhase (calls ▸ found) nofun trivial fun _ => .inl
    | finishing pause acked =>
      cases stepped
      exact inv.setPhase found nofun trivial nofun
    | returned acked => cases stepped

theorem Inv.serving_of_active {n : Nat} (active : s.driver n ≠ .idle) : s.process n = .serving := by
  by_contra off
  exact active (inv.down n off).1

theorem Inv.leave {n : Nat} {todo : List Nat} (up : s.process n = .serving)
    (mid : MidView c (s.view n)) (owned : ∀ k ∈ todo, OwnsOld c n k) :
    Inv c (s.setDriver n (.driving todo)) :=
  inv.setDriver up ⟨.inr mid, owned, nofun, trivial⟩ nofun

end

theorem DriverPhase.ne_idle_of_bisects {phase : DriverPhase} {k : Nat}
    (bisects : phase.bisects = some k) : phase ≠ .idle := by
  rintro rfl
  cases bisects

theorem Inv.setChild (inv : Inv c s) {n k : Nat} {gu : GenUnit} {store : Store Bytes}
    {phase : DriverPhase} (bisects : (s.driver n).bisects = some k)
    (ahead : gu.gen = c.gen + 1) (within : gu.id % c.count.n = k)
    (now : DriverInv c (s.setDb gu store) n phase)
    (free : ∀ k, phase.writeLock = some k → (s.driver n).writeLock = some k) :
    Inv c ((s.setDb gu store).setDriver n phase) := by
  have up := inv.serving_of_active (DriverPhase.ne_idle_of_bisects bisects)
  have unmarked := (inv.driver n).unmarked k bisects
  have mine := (inv.driver n).owned k (DriverPhase.mem_units_of_bisects bisects)
  refine inv.turn up (fun _ => id) (fun key absent => ?_) (fun key marked => ?_) inv.calls
    (fun m apart => ?_) now fun j locked => inv.exclusive n j (free j locked)
  · have other : c.parentOf key ≠ gu := child_ne_oldUnit ahead (c.parentOf key).id
    rw [update_of_ne other]
    exact inv.inParent key absent
  · have other : c.childOf key ≠ gu := by
      rintro rfl
      rw [childOf_mod] at within
      exact unmarked (within ▸ marked)
    rw [update_of_ne other]
    exact inv.inChild key marked
  · refine (inv.driver m).withDb rfl rfl (fun j _ => ?_) fun j theirs other _ withinOther => ?_
    · exact update_of_ne (child_ne_oldUnit ahead j) _ _
    · apply update_of_ne
      rintro rfl
      obtain rfl : k = j := within.symm.trans withinOther
      have held := (inv.driver m).owned k (DriverPhase.mem_units_of_bisects theirs)
      exact apart (held.1.symm.trans mine.1)

theorem Inv.attemptChild (inv : Inv c s) {n k : Nat} {gu : GenUnit} {store : Store Bytes}
    {next : DriverPhase} {todo : List Nat} {effect : State → State} (outcome : Outcome)
    (changes : effect s = s.setDb gu store) (bisects : (s.driver n).bisects = some k)
    (units : (s.driver n).units = k :: todo) (ahead : gu.gen = c.gen + 1)
    (within : gu.id % c.count.n = k) (now : DriverInv c (s.setDb gu store) n next)
    (free : ∀ k, next.writeLock = some k → (s.driver n).writeLock = some k) :
    Inv c (attemptStep n outcome effect next todo s) := by
  have active := DriverPhase.ne_idle_of_bisects bisects
  have mid := (inv.driver n).mid.resolve_left active
  have owned : ∀ j ∈ todo, OwnsOld c n j := by
    intro j mem
    exact (inv.driver n).owned j (by rw [units]; simp [mem])
  unfold attemptStep
  cases outcome with
  | ok =>
    simp only [Outcome.applied, ↓reduceIte, changes]
    exact inv.setChild bisects ahead within now free
  | failed tookEffect =>
    cases tookEffect with
    | false =>
      exact inv.leave (inv.serving_of_active active) mid owned
    | true =>
      simp only [Outcome.applied, ↓reduceIte, changes, reduceCtorEq]
      exact inv.setChild bisects ahead within ⟨.inr mid, owned, nofun, trivial⟩ nofun

theorem keysIn_keysOf (s : State) (gu : GenUnit) : KeysIn s gu (keysOf s gu) := by
  intro key absent
  rw [← Store.lookup_scan, lookup_eq_none_iff]
  intro entry present
  have listed : entry.1 ∈ keysOf s gu := mem_map_of_mem present
  simpa using fun same : key = entry.1 => absent (same ▸ listed)

theorem KeysIn.delete {gu : GenUnit} {key : Bytes} {keys : List Bytes}
    (inside : KeysIn s gu (key :: keys)) : KeysIn (s.setDb gu ((s.db gu).delete key)) gu keys := by
  intro other absent
  simp only [State.setDb, update_self]
  by_cases same : other = key
  · rw [same, Store.get_delete_self]
  · rw [Store.get_delete_of_ne same]
    exact inside other (by simp [same, absent])

theorem low_ne_high (c : Cluster) (k : Nat) : c.lowUnit k ≠ c.highUnit k := by
  intro same
  have ids := congrArg GenUnit.id same
  have positive := c.count.pos
  simp only [Cluster.lowUnit, Cluster.highUnit] at ids
  omega

theorem CopyAgrees.copyEntry {k : Nat} {entry : Bytes × Bytes} {rest : List (Bytes × Bytes)}
    (agrees : CopyAgrees c s k (entry :: rest)) (distinct : ((entry :: rest).map Prod.fst).Nodup) :
    CopyAgrees c (copyEntry c k entry s) k rest := by
  intro key own
  have source : (ParentAnchored.copyEntry c k entry s).db (c.oldUnit k) =
      s.db (c.oldUnit k) := update_of_ne (child_ne_oldUnit rfl k) _ _
  rw [source, ← agrees key own]
  refine Store.or_get_update_put s.db distinct ?_
  rintro rfl
  rw [copyTarget_eq c.twice own]
  rfl

theorem Inv.publish (inv : Inv c s) {n k : Nat} {todo : List Nat} {phase : DriverPhase}
    (copied : s.driver n = .recopying k [] todo)
    (now : DriverInv c { s with marker := k :: s.marker } n phase)
    (free : ∀ j, phase.writeLock = some j → j = k) :
    Inv c ({ s with marker := k :: s.marker }.setDriver n phase) := by
  obtain ⟨-, owned, unmarked, progress⟩ := inv.driver n
  rw [copied] at owned unmarked progress
  have mine := owned k mem_cons_self
  have unread := inv.exclusive n k (by rw [copied]; rfl)
  have more : ∀ j ∈ s.marker, j ∈ k :: s.marker := fun j member => mem_cons_of_mem k member
  have all : AllMarked c s → AllMarked c { s with marker := k :: s.marker } :=
    fun marked j below => more j (marked j below)
  refine inv.turn (inv.serving_of_active (by simp [copied])) more
    (fun key absent => inv.inParent key fun marked => absent (more _ marked))
    (fun key marked => ?_) (fun call member => ?_) (fun m apart => ?_) now
    fun j locked => free j locked ▸ unread
  · rcases mem_cons.mp marked with own | before
    · have agrees := progress.1 key own
      rw [← parentOf_eq_oldUnit own, lookup_nil, Option.none_or] at agrees
      exact agrees.trans (inv.inParent key (own ▸ unmarked k rfl))
    · exact inv.inChild key before
  · have before := inv.calls call member
    have resolved : ∀ pause unit, call.phase.readLock = some pause →
        Targets c s call.node call.request.key pause unit →
        Targets c { s with marker := k :: s.marker } call.node call.request.key pause unit := by
      rintro pause unit reads (⟨rfl, paused, fresh⟩ | ⟨rfl, marked⟩)
      · refine .inl ⟨rfl, paused, fun here hit => ?_⟩
        rcases mem_cons.mp hit with same | old
        · have owner : call.node = n := by
            rw [← here, parentOf_eq_oldUnit same]
            exact mine.1
          exact State.hasReader_eq_false.mp unread call member owner (by rw [reads, paused, same])
        · exact fresh here old
      · exact .inr ⟨rfl, more _ marked⟩
    unfold CallInv at before ⊢
    cases phase : call.phase <;> simp only [phase] at before ⊢ resolved
    case counted => exact before
    case locked => exact before
    case resolved pause unit | missed pause unit => exact resolved pause unit rfl before
    case bound pause unit handle => exact ⟨resolved pause unit rfl before.1, before.2⟩
  · obtain ⟨mid, theirs, fresh, done⟩ := inv.driver m
    refine ⟨mid, theirs, fun j bisects hit => ?_, ?_⟩
    · rcases mem_cons.mp hit with rfl | old
      · have held := theirs j (DriverPhase.mem_units_of_bisects bisects)
        exact apart (held.1.symm.trans mine.1)
      · exact fresh j bisects old
    · revert done
      cases s.driver m <;> simp only [Progress]
      case published => exact more _
      case marking => exact all
      case retiring => exact all
      all_goals exact id

theorem Inv.proceed (inv : Inv c s) {n : Nat} {phase next : DriverPhase}
    (position : s.driver n = phase) (active : phase ≠ .idle)
    (units : ∀ k ∈ next.units, k ∈ phase.units)
    (unmarked : ∀ k, next.bisects = some k → k ∉ s.marker) (progress : Progress c s next)
    (free : ∀ k, next.writeLock = some k →
      phase.writeLock = some k ∨ s.hasReader n k = false) : Inv c (s.setDriver n next) := by
  subst position
  obtain ⟨mid, owned, -, -⟩ := inv.driver n
  refine inv.setDriver (inv.serving_of_active active) ⟨.inr (mid.resolve_left active),
    fun k member => owned k (units k member), unmarked, progress⟩ ?_
  intro k locked
  rcases free k locked with held | none
  · exact inv.exclusive n k held
  · exact none

/-- The next phase neither bisects a unit nor holds a pause. -/
theorem Inv.proceedFree (inv : Inv c s) {n : Nat} {phase next : DriverPhase}
    (position : s.driver n = phase) (active : phase ≠ .idle)
    (units : ∀ k ∈ next.units, k ∈ phase.units) (unbisected : next.bisects = none)
    (unlocked : next.writeLock = none) (progress : Progress c s next) :
    Inv c (s.setDriver n next) := by
  refine inv.proceed position active units (fun k bisects => ?_) progress fun k locked => ?_
  · cases unbisected.symm.trans bisects
  · cases unlocked.symm.trans locked

theorem Inv.mountProceed (inv : Inv c s) {n : Nat} {gu : GenUnit} {phase next : DriverPhase}
    (ahead : gu.gen = c.gen + 1) (position : s.driver n = phase) (active : phase ≠ .idle)
    (units : ∀ k ∈ next.units, k ∈ phase.units)
    (unmarked : ∀ k, next.bisects = some k → k ∉ s.marker)
    (progress : Progress c (s.mountChild n gu) next) (unlocked : next.writeLock = none) :
    Inv c ((s.mountChild n gu).setDriver n next) := by
  have mounted := inv.mountChild n ahead
  obtain ⟨mounts, handles, same⟩ := mountChild_eq s n gu
  rw [same] at mounted progress ⊢
  exact mounted.proceed position active units unmarked progress (by simp [unlocked])

theorem inv_of_attempt {succeeds : Prop} [Decidable succeeds] {done left : State}
    (stepped : (if succeeds then some done else some left) = some s') (ok : Inv c done)
    (failed : Inv c left) : Inv c s' := by
  split at stepped
  case isTrue =>
    cases stepped
    exact ok
  case isFalse =>
    cases stepped
    exact failed

theorem bisectStep_inv {n pick : Nat} {outcome : Outcome} {phase : DriverPhase} {k : Nat}
    (inv : Inv c s) (position : s.driver n = phase) (bisects : phase.bisects = some k)
    (stepped : driveStep c n pick outcome s = some s') : Inv c s' := by
  have active := DriverPhase.ne_idle_of_bisects bisects
  obtain ⟨mid, owned, unmarked, progress⟩ : DriverInv c s n phase := position ▸ inv.driver n
  have entered := mid.resolve_left active
  have inRange := (owned k (DriverPhase.mem_units_of_bisects bisects)).2
  -- leaving the unit for the next tick is always possible
  have leave : ∀ {todo}, phase.units = k :: todo → Inv c (s.setDriver n (.driving todo)) := by
    intro todo units
    exact inv.leave (inv.serving_of_active (position ▸ active)) entered fun j member =>
      owned j (by rw [units]; simp [member])
  have bisected : (s.driver n).bisects = some k := by rw [position, bisects]
  unfold driveStep at stepped
  cases phase with
  | idle | driving | published | marking | retiring => cases bisects
  | checked unit todo =>
    cases bisects
    simp only [position] at stepped
    split at stepped
    case h_1 =>
      cases stepped
      exact leave rfl
    case h_2 =>
      refine inv_of_attempt stepped ?_ (leave rfl)
      exact inv.mountProceed rfl position nofun (fun _ => id) unmarked trivial rfl
  | openedLow unit todo =>
    cases bisects
    simp only [position] at stepped
    refine inv_of_attempt stepped ?_ (leave rfl)
    exact inv.mountProceed rfl position nofun (fun _ => id) unmarked trivial rfl
  | opened unit todo =>
    cases bisects
    simp only [position] at stepped
    refine inv_of_attempt stepped ?_ (leave rfl)
    exact inv.proceed position nofun (fun _ => id) unmarked trivial nofun
  | copying unit rest todo =>
    cases bisects
    simp only [position] at stepped
    cases rest with
    | nil =>
      simp only at stepped
      split at stepped
      case isTrue => cases stepped
      case isFalse unread =>
        cases stepped
        refine inv.proceed position nofun (fun _ => id) unmarked trivial fun j locked => .inr ?_
        cases locked
        simpa using unread
    | cons entry rest =>
      cases stepped
      exact inv.attemptChild outcome rfl bisected (by rw [position]; rfl) rfl
        (copyTarget_mod c.hash inRange entry.1) ⟨.inr entered, owned, unmarked, trivial⟩ nofun
  | paused unit todo =>
    cases bisects
    simp only [position] at stepped
    refine inv_of_attempt stepped ?_ (leave rfl)
    exact inv.proceed position nofun (fun _ => id) unmarked (keysIn_keysOf s (c.lowUnit k))
      fun _ => .inl
  | clearingLow unit keys todo =>
    cases bisects
    simp only [position] at stepped
    cases keys with
    | nil =>
      refine inv_of_attempt stepped ?_ (leave rfl)
      exact inv.proceed position nofun (fun _ => id) unmarked
        ⟨progress, keysIn_keysOf s (c.highUnit k)⟩ fun _ => .inl
    | cons key keys =>
      cases stepped
      exact inv.attemptChild outcome rfl bisected (by rw [position]; rfl) rfl (low_mod inRange)
        ⟨.inr entered, owned, unmarked, KeysIn.delete progress⟩
        (by rw [position]; exact fun _ => id)
  | clearingHigh unit keys todo =>
    cases bisects
    simp only [position] at stepped
    obtain ⟨lowEmpty, inside⟩ := progress
    cases keys with
    | nil =>
      refine inv_of_attempt stepped ?_ (leave rfl)
      refine inv.proceed position nofun (fun _ => id) unmarked ⟨?_, Store.nodup_scan _⟩
        fun _ => .inl
      intro key own
      have empty : (s.db (c.childOf key)).get key = none := by
        rcases childOf_eq own with low | high
        · rw [low]
          exact lowEmpty key (by simp)
        · rw [high]
          exact inside key (by simp)
      rw [Store.lookup_scan, empty, Option.or_none]
    | cons key keys =>
      cases stepped
      exact inv.attemptChild outcome rfl bisected (by rw [position]; rfl) rfl (high_mod inRange)
        ⟨.inr entered, owned, unmarked, fun key absent => by
          simpa only [State.setDb, update_of_ne (low_ne_high c k)] using lowEmpty key absent,
          inside.delete⟩
        (by rw [position]; exact fun _ => id)
  | recopying unit rest todo =>
    cases bisects
    simp only [position] at stepped
    obtain ⟨agrees, distinct⟩ := progress
    cases rest with
    | nil =>
      cases stepped
      cases outcome with
      | ok =>
        exact inv.publish position ⟨.inr entered, owned, nofun, mem_cons_self⟩
          fun _ locked => (Option.some.inj locked).symm
      | failed tookEffect =>
        cases tookEffect with
        | false => exact leave rfl
        | true =>
          exact inv.publish position ⟨.inr entered,
            fun j member => owned j (mem_cons_of_mem k member), nofun, trivial⟩ nofun
    | cons entry rest =>
      cases stepped
      exact inv.attemptChild outcome rfl bisected (by rw [position]; rfl) rfl
        (copyTarget_mod c.hash inRange entry.1)
        ⟨.inr entered, owned, unmarked, agrees.copyEntry distinct, (nodup_cons.mp distinct).2⟩
        (by rw [position]; exact fun _ => id)

theorem Inv.ownedParentSlots_owned (inv : Inv c s) (n : Nat) :
    ∀ k ∈ s.ownedParentSlots n c.gen, OwnsOld c n k := by
  intro k member
  simp only [State.ownedParentSlots, mem_map, mem_filter, beq_iff_eq] at member
  obtain ⟨gu, ⟨mounted, old⟩, rfl⟩ := member
  exact inv.mounted n gu (AList.mem_keys.mp mounted) old

theorem driveStep_inv {n pick : Nat} {outcome : Outcome} (inv : Inv c s)
    (stepped : driveStep c n pick outcome s = some s') : Inv c s' := by
  cases position : s.driver n with
  | idle => simp [driveStep, position] at stepped
  | driving todo =>
    simp only [driveStep, position] at stepped
    cases todo with
    | nil =>
      cases stepped
      exact inv.proceedFree position (by simp) (forall_mem_nil _) rfl rfl trivial
    | cons first rest =>
      simp only at stepped
      split at stepped
      case isFalse => cases stepped
      case isTrue chosen =>
        have fewer : ∀ k ∈ (first :: rest).erase pick, k ∈ first :: rest :=
          fun k member => mem_of_mem_erase member
        split at stepped
        case isTrue =>
          cases stepped
          exact inv.proceedFree position (by simp) fewer rfl rfl trivial
        case isFalse absent =>
          cases stepped
          refine inv.proceed position (by simp) ?_ ?_ trivial (by simp [DriverPhase.writeLock])
          · intro k member
            rcases mem_cons.mp member with rfl | later
            · exact chosen
            · exact fewer k later
          · intro k same
            cases same
            simp only [not_or] at absent
            exact absent.2.2
  | published unit todo =>
    simp only [driveStep, position] at stepped
    cases stepped
    obtain ⟨mid, owned, -, progress⟩ : DriverInv c s n _ := position ▸ inv.driver n
    have entered := mid.resolve_left (by simp)
    obtain ⟨known, flipped, advanced⟩ := inv.views n
    have flips : Inv c (s.setView n ((s.view n).cutOverUnit unit)) := by
      refine inv.setView ⟨.inr (.inl entered), ?_, advanced⟩
        (fun call member here => (inv.calls call member).setView here id) (.inr entered)
      intro k member
      rcases Finset.mem_insert.mp member with rfl | before
      · exact ⟨progress, (owned k mem_cons_self).2⟩
      · exact flipped k before
    exact flips.proceedFree position (by simp) (fun k member => mem_cons_of_mem unit member)
      rfl rfl trivial
  | marking =>
    simp only [driveStep, position] at stepped
    obtain ⟨mid, -, -, progress⟩ : DriverInv c s n _ := position ▸ inv.driver n
    have written : Inv c { s with advanced := s.advanced || outcome.applied } :=
      { inv with
        views := fun m => (inv.views m).mono fun _ => id
        initMarker := fun _ => progress
        driver := fun m => (inv.driver m).congr rfl rfl rfl }
    have up := inv.serving_of_active (n := n) (by simp [position])
    split at stepped
    case isTrue =>
      cases stepped
      exact written.setDriver up ⟨.inr (mid.resolve_left (by simp)), inv.ownedParentSlots_owned n,
        fun k bisects => (by cases bisects), progress⟩ fun k locked => by cases locked
    case isFalse =>
      cases stepped
      exact written.setDriver up ⟨.inl rfl, forall_mem_nil _,
        fun k bisects => (by cases bisects), trivial⟩ fun k locked => by cases locked
  | retiring todo =>
    simp only [driveStep, position] at stepped
    obtain ⟨mid, -, -, progress⟩ : DriverInv c s n _ := position ▸ inv.driver n
    have entered := mid.resolve_left (by simp)
    cases todo with
    | nil =>
      cases stepped
      have done : Inv c (s.setDriver n .idle) :=
        inv.proceedFree position (by simp) (forall_mem_nil _) rfl rfl trivial
      have ahead : (s.view n).advance c.next = GenState.steady (c.gen + 1) c.next := by
        rw [GenState.advance, entered.1]
      have now : ViewInv c s (GenState.steady (c.gen + 1) c.next) :=
        ⟨.inr (.inr rfl), by simp [GenState.steady], fun _ => progress⟩
      rw [ahead]
      exact done.setView (now.mono fun _ => id)
        (fun call member here => (done.calls call member).setView here fun _ => rfl)
        (.inl (by simp [State.setDriver]))
    | cons first rest =>
      obtain ⟨chosen, rfl⟩ := of_guard stepped
      exact (inv.unmount n (c.oldUnit pick)).proceedFree position (by simp)
        (fun k => mem_of_mem_erase) rfl rfl progress
  | _ => exact bisectStep_inv inv position rfl stepped

theorem owned_of_desired {gs : GenState} {n : Nat} {gu : GenUnit}
    (known : gs = GenState.steady c.gen c.count ∨ MidView c gs ∨
      gs = GenState.steady (c.gen + 1) c.next)
    (desired : gu ∈ c.desiredGenUnits gs n) (old : gu.gen = c.gen) : OwnsOld c n gu.id := by
  have listed : gu ∈ ((List.range gs.count.n).map fun u =>
      (⟨gs.gen, u⟩ : GenUnit)).filter fun gu => c.owner gu == n := by
    simp only [Cluster.desiredGenUnits] at desired
    split at desired
    case h_1 => exact desired
    case h_2 next entered =>
      split at desired
      case isFalse => exact desired
      case isTrue =>
        have gen : gs.gen = c.gen := by
          rcases known with rfl | mid | rfl
          · rfl
          · exact mid.1
          · simp [GenState.steady] at entered
        obtain ⟨parent, listed, family⟩ := mem_flatMap.mp desired
        have same : gu = parent := by
          split at family
          case h_1 => exact mem_singleton.mp family
          case h_2 low high _ =>
            simp only [mem_cons, not_mem_nil, or_false] at family
            rcases family with rfl | rfl | rfl
            · rfl
            · simp only at old
              omega
            · simp only at old
              omega
        rw [same]
        exact listed
  simp only [mem_filter, mem_map, mem_range, beq_iff_eq] at listed
  obtain ⟨⟨u, below, rfl⟩, owner⟩ := listed
  refine ⟨by rw [Cluster.oldUnit, ← old]; exact owner, ?_⟩
  rcases known with rfl | mid | rfl
  · exact below
  · rw [← mid.2.1]
    exact below
  · simp [GenState.steady] at old

theorem foldl_mountFresh_eq (s : State) (n : Nat) (units : List GenUnit) :
    ∃ mounts handles, units.foldl (fun state gu => state.mountFresh n gu) s =
      { s with mounts, handles } := by
  induction units generalizing s with
  | nil => exact ⟨s.mounts, s.handles, rfl⟩
  | cons gu rest ih =>
    obtain ⟨mounts, handles, same⟩ := ih (s.mountFresh n gu)
    exact ⟨mounts, handles, by rw [foldl_cons, same]; rfl⟩

theorem Inv.foldl_mountFresh (inv : Inv c s) {n : Nat} {units : List GenUnit}
    (owned : ∀ gu ∈ units, gu.gen = c.gen → OwnsOld c n gu.id) :
    Inv c (units.foldl (fun state gu => state.mountFresh n gu) s) := by
  induction units generalizing s with
  | nil => exact inv
  | cons gu rest ih =>
    exact ih (inv.mountFresh (owned gu (by simp)))
      fun other member => owned other (by simp [member])

theorem Inv.openNode (inv : Inv c s) {n : Nat} {advanced : Bool}
    (booting : s.process n = .booting advanced) : Inv c (openNode c n advanced s) := by
  obtain ⟨idle, ended⟩ := inv.down n (by simp [booting])
  have known : c.adopted advanced = GenState.steady c.gen c.count ∨
      MidView c (c.adopted advanced) ∨
      c.adopted advanced = GenState.steady (c.gen + 1) c.next := by
    cases advanced with
    | false => exact .inl rfl
    | true => exact .inr (.inr rfl)
  have view : ViewInv c s (c.adopted advanced) := by
    refine ⟨known, ?_, ?_⟩
    · cases advanced <;> simp [Cluster.adopted, GenState.steady]
    · cases advanced with
      | false => simp [Cluster.adopted, GenState.steady]
      | true => exact fun _ => inv.booting n booting
  have mounted := inv.foldl_mountFresh (n := n)
    fun gu member => owned_of_desired (c := c) known member
  obtain ⟨mounts, handles, same⟩ :=
    foldl_mountFresh_eq s n (c.desiredGenUnits (c.adopted advanced) n)
  have opened : Inv c ({ s with mounts, handles }.setView n (c.adopted advanced)) := by
    rw [same] at mounted
    refine mounted.setView (view.mono fun _ => id) ?_ (.inl idle)
    intro call member here
    obtain ⟨acked, returned⟩ := ended call member here
    simp only [CallInv, returned]
  simp only [ParentAnchored.openNode, same]
  exact { opened with
    views := fun m => (opened.views m).mono fun _ => id
    booting := (forall_update_iff s.process fun _ process =>
      process = .booting true → AllMarked c s).mpr
        ⟨fun booted => (by cases booted), fun m _ => inv.booting m⟩
    down := (forall_update_iff s.process fun _ process => process ≠ .serving → _).mpr
      ⟨fun off => absurd rfl off, fun m _ => inv.down m⟩
    driver := fun m => (opened.driver m).congr rfl rfl rfl }

theorem Inv.boot (inv : Inv c s) {n : Nat} (off : s.process n ≠ .serving) :
    Inv c { s with process := update s.process n (.booting s.advanced) } :=
  { inv with
    views := fun m => (inv.views m).mono fun _ => id
    booting := (forall_update_iff s.process fun _ process =>
      process = .booting true → AllMarked c s).mpr
        ⟨fun booted => inv.initMarker (Process.booting.inj booted), fun m _ => inv.booting m⟩
    down := (forall_update_iff s.process fun _ process => process ≠ .serving → _).mpr
      ⟨fun _ => inv.down n off, fun m _ => inv.down m⟩
    driver := fun m => (inv.driver m).congr rfl rfl rfl }

theorem mem_crashNode {n : Nat} {call : Call} (mem : call ∈ (crashNode n s).calls) :
    (∃ acked, call.phase = .returned acked) ∨ call ∈ s.calls ∧ call.node ≠ n := by
  obtain ⟨old, present, rfl⟩ := mem_map.mp mem
  split
  case h_1 acked returned => exact .inl ⟨acked, returned⟩
  case h_2 =>
    split
    case isTrue => exact .inl ⟨false, rfl⟩
    case isFalse elsewhere => exact .inr ⟨present, elsewhere⟩

theorem Inv.crashNode (inv : Inv c s) (n : Nat) : Inv c (crashNode n s) :=
  { inv with
    views := fun m => (inv.views m).mono fun _ => id
    booting := (forall_update_iff s.process fun _ process =>
      process = .booting true → AllMarked c s).mpr ⟨nofun, fun m _ => inv.booting m⟩
    down := by
      intro m off
      by_cases here : m = n
      · subst here
        refine ⟨update_self m _ s.driver, fun call mem there => ?_⟩
        rcases mem_crashNode mem with ended | ⟨-, elsewhere⟩
        · exact ended
        · exact absurd there elsewhere
      · obtain ⟨idle, ended⟩ := inv.down m
          (by simpa [ParentAnchored.crashNode, update_of_ne here] using off)
        refine ⟨(update_of_ne here _ s.driver).trans idle, fun call mem there => ?_⟩
        rcases mem_crashNode mem with returned | ⟨present, -⟩
        · exact returned
        · exact ended call present there
    mounted := (forall_update_iff s.mounts fun n mounts =>
      ∀ gu ∈ mounts, gu.gen = c.gen → OwnsOld c n gu.id).mpr
        ⟨fun gu present => absurd present (AList.notMem_empty gu), fun m _ => inv.mounted m⟩
    calls := by
      intro call mem
      rcases mem_crashNode mem with ⟨acked, returned⟩ | ⟨present, -⟩
      · simp only [CallInv, returned]
      · exact inv.calls call present
    exclusive := by
      refine (forall_update_iff s.driver fun m phase => ∀ k, phase.writeLock = some k →
        (ParentAnchored.crashNode n s).hasReader m k = false).mpr ⟨nofun, fun m _ k locked => ?_⟩
      have free := State.hasReader_eq_false.mp (inv.exclusive m k locked)
      refine State.hasReader_eq_false.mpr fun call mem there holds => ?_
      rcases mem_crashNode mem with ⟨acked, returned⟩ | ⟨present, -⟩
      · simp [returned, CallPhase.readLock] at holds
      · exact free call present there holds
    driver := (forall_update_iff s.driver fun m phase => DriverInv c _ m phase).mpr
      ⟨⟨.inl rfl, nofun, nofun, trivial⟩, fun m _ => (inv.driver m).congr rfl rfl rfl⟩ }

theorem State.idle_of_isIdle {n : Nat} (idle : s.isIdle n = true) :
    s.process n = .serving ∧ s.driver n = .idle := by
  simp only [State.isIdle, Bool.and_eq_true, beq_iff_eq] at idle
  refine ⟨idle.1, ?_⟩
  have quiet := idle.2
  split at quiet
  · assumption
  · cases quiet

theorem Inv.mid (inv : Inv c s) {n : Nat} (entered : (s.view n).nextCount.isSome = true) :
    MidView c (s.view n) := by
  rcases (inv.views n).known with steady | mid | advanced
  · rw [steady] at entered
    cases entered
  · exact mid
  · rw [advanced] at entered
    cases entered

theorem Inv.call (inv : Inv c s) {n : Nat} {request : Request} (up : s.process n = .serving) :
    Inv c { s with calls := s.calls ++ [{ node := n, request, phase := .begun }] } :=
  { inv with
    views := fun m => (inv.views m).mono fun _ => id
    down := by
      intro m off
      obtain ⟨idle, ended⟩ := inv.down m off
      refine ⟨idle, fun call mem here => ?_⟩
      rcases mem_snoc.mp mem with old | rfl
      · exact ended call old here
      · obtain rfl : n = m := here
        exact absurd up off
    calls := by
      intro call mem
      rcases mem_snoc.mp mem with old | rfl
      · exact inv.calls call old
      · trivial
    exclusive := by
      intro m k locked
      simpa [State.hasReader, CallPhase.readLock] using inv.exclusive m k locked
    driver := fun m => (inv.driver m).congr rfl rfl rfl }

theorem step_inv {action : Action} (inv : Inv c s) (safe : careful c s action = true)
    (stepped : (machine c).step action s = some s') : Inv c s' := by
  cases action with
  | call n request =>
    obtain ⟨⟨up, -⟩, rfl⟩ := of_guard stepped
    exact inv.call up
  | stepCall i outcome => exact callStep_inv inv safe stepped
  | enter n =>
    obtain ⟨⟨idle, steady⟩, rfl⟩ := of_guard stepped
    rw [steady]
    have now : ViewInv c s ((GenState.steady c.gen c.count).enter c.next) :=
      ⟨.inr (.inl ⟨rfl, rfl, rfl⟩), by simp [GenState.steady, GenState.enter],
        by simp [GenState.steady, GenState.enter]⟩
    refine inv.setView now ?_ (.inl (State.idle_of_isIdle idle).2)
    intro call member here
    refine (inv.calls call member).setView here fun ahead => ?_
    rw [steady] at ahead
    exact absurd ahead (by simp [GenState.steady])
  | observe n k =>
    obtain ⟨⟨idle, entered, inRange, marked⟩, rfl⟩ := of_guard stepped
    have mid := inv.mid entered
    obtain ⟨-, flipped, advanced⟩ := inv.views n
    refine inv.setView ⟨.inr (.inl mid), ?_, advanced⟩
      (fun call member here => (inv.calls call member).setView here id)
      (.inl (State.idle_of_isIdle idle).2)
    intro j member
    rcases Finset.mem_insert.mp member with rfl | before
    · rw [mid.2.1] at inRange
      exact ⟨marked, by simpa [UnitCount.contains] using inRange⟩
    · exact flipped j before
  | beginDrive n =>
    obtain ⟨⟨idle, entered⟩, rfl⟩ := of_guard stepped
    exact inv.leave (State.idle_of_isIdle idle).1 (inv.mid entered)
      (inv.ownedParentSlots_owned n)
  | beginFinalize n =>
    obtain ⟨⟨idle, all⟩, rfl⟩ := of_guard stepped
    have mid : MidView c (s.view n) := by
      apply inv.mid
      simp only [GenState.allCutOver, Bool.and_eq_true] at all
      exact all.1
    have flipped := (inv.views n).flipped
    have marked : AllMarked c s := by
      intro k below
      refine (flipped k (GenState.mem_cutOver_of_allCutOver all ?_ ?_)).1
      · rw [mid.2.1]
        exact fun u member => (flipped u member).2
      · rw [mid.2.1]
        exact below
    exact inv.setDriver (State.idle_of_isIdle idle).1 ⟨.inr mid,
      by simp [DriverPhase.units], by simp [DriverPhase.bisects], marked⟩
      (by simp [DriverPhase.writeLock])
  | drive n pick outcome => exact driveStep_inv inv stepped
  | acquire n gu =>
    obtain ⟨⟨-, desired, -⟩, rfl⟩ := of_guard stepped
    exact inv.mountFresh (owned_of_desired (inv.views n).known desired)
  | release n gu =>
    obtain ⟨-, rfl⟩ := of_guard stepped
    exact inv.unmount n gu
  | crash n =>
    cases stepped
    exact inv.crashNode n
  | boot n =>
    simp only [machine, step, Option.ite_none_left_eq_some, Option.some.injEq] at stepped
    obtain ⟨off, rfl⟩ := stepped
    exact inv.boot off
  | serve n =>
    simp only [machine, step] at stepped
    split at stepped
    case h_1 advanced booting =>
      cases stepped
      exact inv.openNode booting
    case h_2 => cases stepped

theorem Initial.inv (initial : Initial c s) : Inv c s where
  views := by
    intro n
    rw [initial.steady n]
    exact ⟨.inl rfl, by simp [GenState.steady], by simp [GenState.steady]⟩
  initMarker := by simp [initial.noMarkers.2]
  booting := by simp [initial.serving]
  down := fun n off => absurd (initial.serving n) off
  mounted := by
    intro n gu present old
    refine owned_of_desired (.inl (initial.steady n)) (initial.mounted n gu present) old
  inParent := by
    intro key _
    simp only [current, initial.noLog key, initial.before key]
  inChild := by simp [initial.noMarkers.1]
  calls := by simp [initial.noCalls]
  exclusive := by simp [initial.idle, DriverPhase.writeLock]
  driver := by
    intro n
    rw [initial.idle n]
    exact ⟨.inl rfl, by simp [DriverPhase.units], by simp [DriverPhase.bisects], trivial⟩

theorem current_eq (s : State) (key : Bytes) :
    current s key = lastAcked s key ∨ ∃ write ∈ unacked s key, current s key = write.2 := by
  unfold current lastAcked unacked
  cases s.log key with
  | nil => exact .inl rfl
  | cons write rest =>
    by_cases acked : s.isAcked write.1 = true
    · left
      simp [acked]
    · right
      exact ⟨write, by simp [acked], rfl⟩

/-- **A split at one replica loses no acked write.** In every state that a run of `careful`
steps reaches, crashes included, once every node has advanced each key's new unit holds the
effect of the last acked write, or of a write applied after it whose answer is still out or
was cut off. -/
theorem value_eq_last_acked_of_finalized {start : State} (initial : Initial c start)
    (reached : (machine c).Reaches (fun s action => careful c s action = true) start s)
    (finalized : Finalized c s) (key : Bytes) {n : Nat} (known : n ∈ c.nodes) :
    let value := (s.db ((s.view n).resolveGenUnit (c.hash key))).get key
    value = lastAcked s key ∨ ∃ write ∈ unacked s key, value = write.2 := by
  have inv : Inv c s := reached.invariant initial.inv step_inv
  obtain ⟨-, ahead⟩ := finalized n known
  have home : (s.view n).resolveGenUnit (c.hash key) = c.childOf key := by
    rcases (inv.views n).known with steady | mid | advanced
    · rw [steady] at ahead
      exact absurd ahead (by simp [GenState.steady])
    · exact absurd (mid.1.symm.trans ahead) (by omega)
    · rw [advanced, GenState.resolveGenUnit_steady]
      rfl
  have marked := (inv.views n).advanced ahead _ (unitForHash_lt (c.hash key) c.count)
  simp only [home]
  rw [inv.inChild key marked]
  exact current_eq s key

def solo : Cluster where
  hash := fun _ => 0
  nodes := [0, 1]
  owner := fun _ => 0
  gen := 0
  count := .one
  next := .two
  twice := rfl

def freshSolo : State where
  process := fun _ => .serving
  view := fun _ => .steady 0 solo.count
  db := fun _ => ∅
  mounts := fun n => if n = 0 then AList.singleton ⟨0, 0⟩ 0 else ∅
  handles := 1
  calls := []
  driver := fun _ => .idle
  marker := []
  advanced := false
  log := fun _ => []
  before := fun _ => none

theorem freshSolo_initial : Initial solo freshSolo where
  serving := fun _ => rfl
  steady := fun _ => rfl
  idle := fun _ => rfl
  noCalls := rfl
  noMarkers := ⟨rfl, rfl⟩
  mounted := by
    intro n gu present
    simp only [freshSolo] at present
    split at present
    case isTrue first =>
      rw [AList.mem_keys, AList.keys_singleton, mem_singleton] at present
      subst first present
      decide
    case isFalse => exact absurd present (AList.notMem_empty _)
  noLog := fun _ => rfl
  before := fun _ => rfl

def driveSteps (n steps : Nat) : List Action := List.replicate steps (.drive n 0 .ok)

def callSteps (i steps : Nat) : List Action := List.replicate steps (.stepCall i .ok)

def finalizeNode (n steps : Nat) : List Action :=
  [.enter n, .observe n 0, .beginFinalize n] ++ driveSteps n steps

theorem value_after_careful_crash :
    ∃ s, (machine solo).Reaches (fun s action => careful solo s action = true) freshSolo s ∧
      Finalized solo s ∧ s.isAcked 1 = true ∧
      (s.db ((s.view 0).resolveGenUnit (solo.hash [7]))).get [7] = some [2] := by
  obtain ⟨s, reached, finalized, acked, last, none⟩ :=
    (machine solo).exists_reaches_of_run (fun s action => careful solo s action = true)
      (List.flatten [.call 0 ⟨[7], some [1]⟩ :: callSteps 0 6, [.enter 0, .beginDrive 0],
        driveSteps 0 12,
        [.crash 0, .boot 0, .serve 0, .enter 0, .observe 0 0, .acquire 0 ⟨1, 0⟩,
          .call 0 ⟨[7], some [2]⟩],
        callSteps 1 6, .beginFinalize 0 :: driveSteps 0 3, finalizeNode 1 2])
      freshSolo
      (fun s => Finalized solo s ∧ s.isAcked 1 = true ∧ lastAcked s [7] = some [2] ∧
        unacked s [7] = []) (by decide)
  refine ⟨s, reached, finalized, acked, ?_⟩
  rcases value_eq_last_acked_of_finalized freshSolo_initial reached finalized [7]
      (n := 0) (by decide) with value | ⟨write, member, -⟩
  · rw [← last]
    exact value
  · simp [none] at member

/-- Without the condition acked writes are lost: the owner crashes after its flip and restarts at
the old generation, or the store reports an error for a marker it has published, and the owner acks
a write into the old unit before it has looked at the marker. -/
theorem split_loses_acked_write :
    (∃ s, (machine solo).Reaches anyAction freshSolo s ∧ Finalized solo s ∧
      lastAcked s [7] = some [1] ∧ unacked s [7] = [] ∧
      (s.db ((s.view 0).resolveGenUnit (solo.hash [7]))).get [7] = none) ∧
    (∃ s, (machine solo).Reaches anyAction freshSolo s ∧ Finalized solo s ∧
      lastAcked s [7] = some [1] ∧ unacked s [7] = [] ∧
      (s.db ((s.view 0).resolveGenUnit (solo.hash [7]))).get [7] = none) := by
  constructor
  · exact (machine solo).exists_reaches_of_run anyAction
      (List.flatten [[.enter 0, .beginDrive 0], driveSteps 0 11,
        [.crash 0, .boot 0, .serve 0, .call 0 ⟨[7], some [1]⟩], callSteps 0 6, finalizeNode 0 3,
        finalizeNode 1 2])
      freshSolo _ (by decide)
  · exact (machine solo).exists_reaches_of_run anyAction
      (List.flatten [[.enter 0, .beginDrive 0], driveSteps 0 8,
        [.drive 0 0 (.failed true), .call 0 ⟨[7], some [1]⟩], callSteps 0 6,
        [.drive 0 0 .ok, .observe 0 0, .beginFinalize 0], driveSteps 0 3, finalizeNode 1 2])
      freshSolo _ (by decide)

end Shale.ParentAnchored
