import Shale.Reshard.Replicated

/-!
# What a replicated reshard keeps

The invariant of `Replicated.machine` behind "every acked write keeps its copies". A
write is acked over the positions of one unit, old or new; the positions of an old unit
reach the new one through the final copy that `finalizeParent` makes under the pause. So
it is enough that a retired slot is sealed (nothing can write to it any more) and copied
out, and that a node advances only when all slots it hosts are retired. `careful` names
the steps that would break this.
-/

namespace Shale.Replicated

open List Machine

open Function (comp_apply comp_def forall_update_iff update update_of_ne update_self)

variable {c : Cluster} {s s' : State}

/-- The steps that keep the copies of acked writes. A node advances its generation only
when every old slot it hosts has been retired by its own `finalizeParent`; it pauses a
slot only when no leg that skipped the pause is still to apply there; and no mount of an
old slot completes on a node that has advanced. -/
def careful (c : Cluster) (s : State) : Action → Bool
  | .drive n pick _ =>
    match s.driver n with
    | .finalizing [] =>
      decide (∀ k < c.count.n, ∀ ru ∈ c.positions { gen := c.gen, id := k },
        c.hosts n ru = true → s.retired n ru = true)
    | .finalizing (_ :: _) =>
      decide (∀ attempt ∈ s.attempts, ∀ leg ∈ attempt.legs,
        leg.route = ⟨n, pick⟩ → leg.phase.unpaused = false)
    | _ => true
  | .finishAcquire n ru => !((s.view n).gen == c.gen + 1 && ru.unit.gen == c.gen)
  | _ => true

theorem map_ru_legsAt (c : Cluster) (gu gu' : GenUnit) :
    (legsAt gu (c.members gu')).map RoutedReplica.ru = c.positions gu := by
  apply ext_getElem
  · simp [Cluster.positions, c.placed]
  · intro i _ _
    simp [legsAt, Cluster.positions]

theorem nodup_positions (c : Cluster) (gu : GenUnit) : (c.positions gu).Nodup := by
  rw [← map_ru_legsAt c gu gu, nodup_legsAt, c.placed]
  exact c.positions_le

theorem hosts_inj {n m : Nat} {ru : ReplicaUnit} (left : c.hosts n ru = true)
    (right : c.hosts m ru = true) : n = m := by
  simp only [Cluster.hosts, beq_iff_eq] at left right
  exact Option.some.inj (left.symm.trans right)

theorem hosts_of_mem_legsAt {gu : GenUnit} {leg : RoutedReplica}
    (mem : leg ∈ legsAt gu (c.members gu)) : c.hosts leg.member leg.ru = true := by
  obtain ⟨i, found, address⟩ := mem_legsAt.mp mem
  have below : i < c.r := by
    rw [← c.placed gu]
    exact (List.getElem?_eq_some_iff.mp found).1
  have bound := c.positions_le
  have index : (UInt8.ofNat i).toNat = i := by
    simp only [UInt8.toNat_ofNat']
    omega
  simp [Cluster.hosts, address, index, found]

theorem hosts_of_owns {gen n : Nat} {count : UnitCount} {ru : ReplicaUnit}
    (owned : c.owns gen count n ru = true) : c.hosts n ru = true := by
  simp only [Cluster.owns, Bool.and_eq_true, beq_iff_eq] at owned
  obtain ⟨i, index, position⟩ := Option.map_eq_some_iff.mp owned.2
  have found : (c.members ru.unit)[i]? = some n := by
    obtain ⟨below, same, _⟩ := List.idxOf?_eq_some_iff.mp index
    simpa [below] using same
  have below : i < c.r := by
    rw [← c.placed ru.unit]
    exact (List.getElem?_eq_some_iff.mp found).1
  have bound := c.positions_le
  have same : ru.replica.toNat = i := by
    rw [← position]
    simp only [UInt8.toNat_ofNat']
    omega
  simp [Cluster.hosts, same, found]

def LegPhase.armed : LegPhase → Bool
  | .ready _ | .bound _ _ => true
  | .sent | .waiting | .evicting _ _ | .finishing _ _ | .done _ => false

def LegPhase.isBound : LegPhase → Bool
  | .bound _ _ => true
  | .sent | .waiting | .ready _ | .evicting _ _ | .finishing _ _ | .done _ => false

theorem LegPhase.armed_of_isBound {phase : LegPhase} (bound : phase.isBound = true) :
    phase.armed = true := by
  cases phase with
  | bound paused handle => rfl
  | sent | waiting | ready | evicting | finishing | done => cases bound

def Quiet (s : State) (n : Nat) (slot : ReplicaUnit) : Prop :=
  ∀ attempt ∈ s.attempts, ∀ leg ∈ attempt.legs, leg.route = ⟨n, slot⟩ →
    leg.phase.armed = false

structure Sealed (s : State) (n : Nat) (slot : ReplicaUnit) : Prop where
  unmounted : (s.mounts n).lookup slot = none
  unbound : ∀ attempt ∈ s.attempts, ∀ leg ∈ attempt.legs, leg.route = ⟨n, slot⟩ →
    leg.phase.isBound = false

/-- What an old slot holds for a key has reached the next generation: the same slot of
the child in a split, enough positions of the survivor in a merge. -/
def Delivered (c : Cluster) (s : State) (slot : ReplicaUnit) (key : Bytes) (stamp : Stamp) : Prop :=
  if c.isSplit then (s.db ⟨c.otherOf key, slot.replica⟩).HoldsAtLeast key stamp
  else c.bar ≤ copies c s (c.otherOf key) key stamp

def CopiedExcept (c : Cluster) (s : State) (slot : ReplicaUnit)
    (rest : List (Bytes × Envelope)) : Prop :=
  ∀ key env, unitForHash (c.hash key) c.count = slot.unit.id →
    (s.db slot).get key = some env → (key, env) ∈ rest ∨ Delivered c s slot key env.stamp

def Attempt.GatedAt (attempt : Attempt) (c : Cluster) (gu : GenUnit) : Prop :=
  (attempt.legs.filter Leg.gates).map (fun leg => leg.route.ru) = c.positions gu

def FinalCopy (c : Cluster) (s : State) : DriverPhase → Prop
  | .copying true job _ => c.isSplit = true ∧ CopiedExcept c s job.slot job.rest
  | .forwarding true slot rest none _ => c.isSplit = false ∧ CopiedExcept c s slot rest
  | .forwarding true slot rest (some a) _ =>
    (c.isSplit = false ∧ CopiedExcept c s slot rest) ∧ ∀ entry ∈ rest.head?, ∃ attempt,
      s.attempts[a]? = some attempt ∧ attempt.key = entry.1 ∧ attempt.env = entry.2 ∧
      attempt.bar = c.bar ∧
      attempt.GatedAt c { gen := c.gen + 1, id := slot.unit.id % c.next.n }
  | _ => True

def DriverPhase.slots : DriverPhase → List ReplicaUnit
  | .idle => []
  | .driving todo | .finalizing todo | .gatingHigh _ todo => todo
  | .starting _ slot _ todo | .forwarding _ slot _ _ todo | .marking slot todo
  | .gating slot todo => slot :: todo
  | .copying _ job todo => job.slot :: todo

theorem DriverPhase.finalSlot_copying (final : Bool) (job : CopyJob) (todo : List ReplicaUnit) :
    (copying final job todo).finalSlot = if final then some job.slot else none := by
  cases final <;> rfl

theorem DriverPhase.finalSlot_forwarding (final : Bool) (slot : ReplicaUnit)
    (rest : List (Bytes × Envelope)) (attempt : Option Nat) (todo : List ReplicaUnit) :
    (forwarding final slot rest attempt todo).finalSlot = if final then some slot else none := by
  cases final <;> rfl

theorem DriverPhase.mem_slots_of_finalSlot {phase : DriverPhase} {slot : ReplicaUnit}
    (final : phase.finalSlot = some slot) : slot ∈ phase.slots := by
  unfold finalSlot at final
  split at final
  · simp_all [slots]
  · simp_all [slots]
  · simp_all [slots]
  · cases final

def MidView (c : Cluster) (gs : GenState) : Prop :=
  gs.gen = c.gen ∧ gs.count = c.count ∧ gs.nextCount = some c.next

def OldSlot (c : Cluster) (n : Nat) (slot : ReplicaUnit) : Prop :=
  slot.unit.gen = c.gen ∧ c.hosts n slot = true

structure DriverInv (c : Cluster) (s : State) (n : Nat) (phase : DriverPhase) : Prop where
  mid : phase = .idle ∨ MidView c (s.view n)
  slots : ∀ slot ∈ phase.slots, OldSlot c n slot
  quiet : ∀ slot, phase.finalSlot = some slot → Quiet s n slot
  final : FinalCopy c s phase

structure AttemptInv (c : Cluster) (s : State) (attempt : Attempt) : Prop where
  applied : ∀ leg ∈ attempt.legs, leg.phase.applied = true →
    (s.db leg.route.ru).HoldsAtLeast attempt.key attempt.env.stamp
  hosted : ∀ leg ∈ attempt.legs, leg.route.ru.unit.gen = c.gen →
    c.hosts leg.route.member leg.route.ru = true
  gated : attempt.client = true → attempt.bar = c.bar ∧
    (attempt.GatedAt c (c.parentOf attempt.key) ∨ attempt.GatedAt c (c.otherOf attempt.key))

structure Inv (c : Cluster) (s : State) : Prop where
  views : ∀ n, s.view n = GenState.steady c.gen c.count ∨ MidView c (s.view n) ∨
    s.view n = GenState.steady (c.gen + 1) c.next
  driver : ∀ n, DriverInv c s n (s.driver n)
  mounted : ∀ n, ∀ ru ∈ s.mounts n, ru.unit.gen = c.gen → c.hosts n ru = true
  acquiring : ∀ n, ∀ ru ∈ s.acquiring n, ru.unit.gen = c.gen → c.hosts n ru = true
  attempts : ∀ attempt ∈ s.attempts, AttemptInv c s attempt
  retired : ∀ n slot, s.retired n slot = true →
    OldSlot c n slot ∧ Sealed s n slot ∧ CopiedExcept c s slot []
  advanced : ∀ n, (s.view n).gen = c.gen + 1 → ∀ k < c.count.n,
    ∀ ru ∈ c.positions { gen := c.gen, id := k }, c.hosts n ru = true →
      s.retired n ru = true
  acked : ∀ write ∈ s.acked, c.bar ≤ copies c s (c.parentOf write.1) write.1 write.2 ∨
    c.bar ≤ copies c s (c.otherOf write.1) write.1 write.2

theorem DriverInv.congr {n : Nat} {phase : DriverPhase} (now : DriverInv c s n phase)
    (view : s'.view n = s.view n) (attempts : s'.attempts = s.attempts) (db : s'.db = s.db) :
    DriverInv c s' n phase where
  mid := by
    rw [view]
    exact now.mid
  slots := now.slots
  quiet := by
    simpa only [Quiet, attempts] using now.quiet
  final := by
    have final := now.final
    unfold FinalCopy at final ⊢
    simpa only [CopiedExcept, Delivered, copies, db, attempts] using final

theorem AttemptInv.congr {attempt : Attempt} (own : AttemptInv c s attempt) (db : s'.db = s.db) :
    AttemptInv c s' attempt where
  applied := by
    rw [db]
    exact own.applied
  hosted := own.hosted
  gated := own.gated

theorem Inv.retired_congr (inv : Inv c s) (mounts : s'.mounts = s.mounts)
    (attempts : s'.attempts = s.attempts) (db : s'.db = s.db) : ∀ n slot, s.retired n slot = true →
        OldSlot c n slot ∧ Sealed s' n slot ∧ CopiedExcept c s' slot [] := by
  intro n slot gone
  obtain ⟨old, shut, copied⟩ := inv.retired n slot gone
  refine ⟨old, ⟨?_, ?_⟩, ?_⟩
  · rw [mounts]
    exact shut.unmounted
  · rw [attempts]
    exact shut.unbound
  · simpa only [CopiedExcept, Delivered, copies, db] using copied

def DbLe (s s' : State) : Prop :=
  ∀ ru key stamp, (s.db ru).HoldsAtLeast key stamp → (s'.db ru).HoldsAtLeast key stamp

theorem dbLe_applyAt (s : State) (ru : ReplicaUnit) (key : Bytes) (env : Envelope) :
    DbLe s (s.applyAt ru key env) := by
  intro other key' stamp holds
  by_cases same : other = ru
  · subst same
    simpa [State.applyAt] using holds.applyIfNewer key env
  · simpa [State.applyAt, update_of_ne same] using holds

theorem DbLe.copies_le (le : DbLe s s') (gu : GenUnit) (key : Bytes) (stamp : Stamp) :
    copies c s gu key stamp ≤ copies c s' gu key stamp := by
  apply List.Sublist.length_le
  apply monotone_filter_right
  intro ru holds
  simp only [decide_eq_true_eq] at holds ⊢
  exact le ru key stamp holds

theorem DbLe.delivered (le : DbLe s s') {slot : ReplicaUnit} {key : Bytes} {stamp : Stamp}
    (delivered : Delivered c s slot key stamp) : Delivered c s' slot key stamp := by
  unfold Delivered at delivered ⊢
  split
  case isTrue split =>
    simp only [split, ↓reduceIte] at delivered
    exact le _ _ _ delivered
  case isFalse merge =>
    simp only [merge, Bool.false_eq_true, ↓reduceIte] at delivered
    exact delivered.trans (le.copies_le _ _ _)

theorem AttemptInv.acks_le_copies {attempt : Attempt} (inv : AttemptInv c s attempt)
    {gu : GenUnit} (gated : attempt.GatedAt c gu) :
    attempt.acks ≤ copies c s gu attempt.key attempt.env.stamp := by
  let acking : List Leg := attempt.legs.filter fun leg => leg.gates && leg.phase == .done true
  have nested : acking = (attempt.legs.filter Leg.gates).filter
      fun leg => leg.phase == .done true := by
    simp only [acking, filter_filter, Bool.and_comm]
  have distinct : (acking.map fun leg => leg.route.ru).Nodup := by
    have all := nodup_positions c gu
    rw [← gated] at all
    rw [nested]
    exact (filter_sublist.map _).nodup all
  have inside : ∀ ru ∈ acking.map (fun leg => leg.route.ru),
      ru ∈ (c.positions gu).filter fun ru =>
        decide ((s.db ru).HoldsAtLeast attempt.key attempt.env.stamp) := by
    intro ru mem
    obtain ⟨leg, acked, rfl⟩ := mem_map.mp mem
    simp only [acking, mem_filter, Bool.and_eq_true, beq_iff_eq] at acked
    rw [mem_filter, ← gated]
    refine ⟨mem_map.mpr ⟨leg, mem_filter.mpr ⟨acked.1, acked.2.1⟩, rfl⟩, ?_⟩
    simpa using inv.applied leg acked.1 (by rw [acked.2.2]; rfl)
  have bound := (subperm_of_subset distinct inside).length_le
  simpa [acking, Attempt.acks, copies] using bound

theorem CopiedExcept.mono {slot : ReplicaUnit} {rest : List (Bytes × Envelope)}
    (copied : CopiedExcept c s slot rest) (le : DbLe s s') (same : s'.db slot = s.db slot) :
    CopiedExcept c s' slot rest := by
  intro key env own stored
  rw [same] at stored
  exact (copied key env own stored).imp_right le.delivered

/-- A slot whose contents a step must leave alone. -/
def Frozen (s : State) (n : Nat) (slot : ReplicaUnit) : Prop :=
  s.retired n slot = true ∨ (s.driver n).finalSlot = some slot

theorem FinalCopy.mono {phase : DriverPhase} (final : FinalCopy c s phase) (le : DbLe s s')
    (same : ∀ slot, phase.finalSlot = some slot → s'.db slot = s.db slot)
    (attempts : s'.attempts = s.attempts) : FinalCopy c s' phase := by
  unfold FinalCopy at final ⊢
  split
  case h_1 job todo | h_2 slot rest todo => exact ⟨final.1, final.2.mono le (same _ rfl)⟩
  case h_3 slot rest a todo =>
    refine ⟨⟨final.1.1, final.1.2.mono le (same _ rfl)⟩, ?_⟩
    rw [attempts]
    exact final.2
  case h_4 => trivial

section

variable (inv : Inv c s)
include inv

theorem Inv.withDb {db : ReplicaUnit → Store Envelope} (le : DbLe s { s with db })
    (frozen : ∀ n slot, OldSlot c n slot → Frozen s n slot → db slot = s.db slot) :
    Inv c { s with db } :=
  { inv with
    driver := by
      intro n
      obtain ⟨mid, slots, quiet, final⟩ := inv.driver n
      refine ⟨mid, slots, quiet, final.mono le ?_ rfl⟩
      intro slot finalizing
      exact frozen n slot (slots slot (DriverPhase.mem_slots_of_finalSlot finalizing))
        (.inr finalizing)
    attempts := by
      intro attempt mem
      obtain ⟨applied, hosted, gated⟩ := inv.attempts attempt mem
      exact ⟨fun leg present done => le _ _ _ (applied leg present done), hosted, gated⟩
    retired := by
      intro n slot gone
      obtain ⟨old, shut, copied⟩ := inv.retired n slot gone
      exact ⟨old, ⟨shut.unmounted, shut.unbound⟩, copied.mono le (frozen n slot old (.inl gone))⟩
    acked := by
      intro write mem
      exact (inv.acked write mem).imp (fun bar => bar.trans (le.copies_le _ _ _))
        (fun bar => bar.trans (le.copies_le _ _ _)) }

theorem Inv.setDriver {n : Nat} {phase : DriverPhase} (now : DriverInv c s n phase) :
    Inv c (s.setDriver n phase) :=
  { inv with
    driver := (forall_update_iff s.driver fun m phase => DriverInv c _ m phase).mpr
      ⟨now.congr rfl rfl rfl, fun m _ => (inv.driver m).congr rfl rfl rfl⟩
    attempts := fun attempt member => (inv.attempts attempt member).congr rfl
    retired := inv.retired_congr rfl rfl rfl }

theorem Inv.unmount (n : Nat) (ru : ReplicaUnit) : Inv c (s.unmount n ru) :=
  { inv with
    driver := fun m => (inv.driver m).congr rfl rfl rfl
    mounted := (forall_update_iff s.mounts fun m mounts =>
      ∀ ru ∈ mounts, ru.unit.gen = c.gen → c.hosts m ru = true).mpr
        ⟨fun slot present => inv.mounted n slot (AList.mem_erase.mp present).2,
          fun m _ => inv.mounted m⟩
    attempts := fun attempt member => (inv.attempts attempt member).congr rfl
    retired := by
      intro m slot gone
      obtain ⟨old, shut, copied⟩ := inv.retired m slot gone
      refine ⟨old, ⟨?_, shut.unbound⟩, copied⟩
      simp only [State.unmount]
      by_cases same : m = n
      · subst same
        rw [update_self]
        by_cases hit : slot = ru
        · rw [hit, AList.lookup_erase]
        · rw [AList.lookup_erase_ne hit]
          exact shut.unmounted
      · rw [update_of_ne same]
        exact shut.unmounted }

theorem Inv.evictIfSame (n : Nat) (ru : ReplicaUnit) (handle : Nat) :
    Inv c (s.evictIfSame n ru handle) := by
  unfold State.evictIfSame
  split
  · exact inv.unmount n ru
  · exact inv

theorem Inv.withAttempts {attempts : List Attempt}
    (now : ∀ attempt ∈ attempts, AttemptInv c s attempt)
    (opens : ∀ attempt ∈ attempts, ∀ leg ∈ attempt.legs, (∃ old ∈ s.attempts, leg ∈ old.legs) ∨
      (leg.phase.armed = true → (s.driver leg.route.member).finalSlot ≠ some leg.route.ru) ∧
      (leg.phase.isBound = true → s.retired leg.route.member leg.route.ru = false))
    (kept : ∀ {b : Nat} {old : Attempt}, s.attempts[b]? = some old → ∃ new,
      attempts[b]? = some new ∧ new.key = old.key ∧ new.env = old.env ∧ new.bar = old.bar ∧
      ∀ gu, old.GatedAt c gu → new.GatedAt c gu) :
    Inv c { s with attempts } :=
  { inv with
    driver := by
      intro n
      obtain ⟨mid, slots, quiet, final⟩ := inv.driver n
      refine ⟨mid, slots, ?_, ?_⟩
      · intro slot finalizing attempt member leg inside there
        rcases opens attempt member leg inside with ⟨old, before, held⟩ | ⟨shuts, -⟩
        · exact quiet slot finalizing old before leg held there
        · by_contra opened
          refine shuts (by simpa using opened) ?_
          rw [there]
          exact finalizing
      · change FinalCopy c { s with attempts } (s.driver n)
        revert final
        unfold FinalCopy
        split
        · exact id
        · exact id
        · rintro ⟨copied, forward⟩
          refine ⟨copied, fun entry first => ?_⟩
          obtain ⟨old, at_b, key, env, bar, gated⟩ := forward entry first
          obtain ⟨new, at_new, key', env', bar', gated'⟩ := kept at_b
          exact ⟨new, at_new, key'.trans key, env'.trans env, bar'.trans bar, gated' _ gated⟩
        · exact id
    attempts := fun attempt member => (now attempt member).congr rfl
    retired := by
      intro n slot gone
      obtain ⟨old, shut, copied⟩ := inv.retired n slot gone
      refine ⟨old, ⟨shut.unmounted, ?_⟩, copied⟩
      intro attempt member leg inside there
      rcases opens attempt member leg inside with ⟨before, held, kept⟩ | ⟨-, bound⟩
      · exact shut.unbound before held leg kept there
      · by_contra opened
        have mounted := bound (by simpa using opened)
        rw [there] at mounted
        cases mounted.symm.trans gone }

end

private theorem map_filter_set {α β : Type} (f : α → β) (p : α → Bool) {l : List α} {i : Nat}
    {x y : α} (found : l[i]? = some x) (chosen : p y = p x) (image : f y = f x) :
    ((l.set i y).filter p).map f = (l.filter p).map f := by
  induction l generalizing i with
  | nil => simp
  | cons head rest ih =>
    cases i with
    | zero =>
      obtain rfl : head = x := by simpa using found
      simp only [set_cons_zero, filter_cons, chosen]
      split <;> simp [image]
    | succ i =>
      have later := ih (i := i) (by simpa using found)
      simp only [set_cons_succ, filter_cons]
      split <;> simp [later]

section SetLeg

variable {a i : Nat} {attempt : Attempt} {leg : Leg} {phase : LegPhase}

theorem gatedAt_set (found : attempt.legs[i]? = some leg) {gu : GenUnit} :
    Attempt.GatedAt { attempt with legs := attempt.legs.set i { leg with phase } } c gu ↔
      attempt.GatedAt c gu := by
  unfold Attempt.GatedAt
  have same := map_filter_set (fun leg : Leg => leg.route.ru) Leg.gates
    (y := { leg with phase }) found rfl rfl
  simp only [same]

theorem mem_setLeg {other : Attempt} {l : Leg} (present : s.attempts[a]? = some attempt)
    (mem : other ∈ (s.setLeg a i attempt leg phase).attempts) (inside : l ∈ other.legs) :
    (∃ old ∈ s.attempts, l ∈ old.legs) ∨ l = { leg with phase } := by
  rcases mem_or_eq_of_mem_set mem with old | rfl
  · exact .inl ⟨other, old, inside⟩
  · rcases mem_or_eq_of_mem_set inside with old | rfl
    · exact .inl ⟨attempt, mem_of_getElem? present, old⟩
    · exact .inr rfl

theorem getElem?_setLeg (phase : LegPhase) {b : Nat} {old : Attempt}
    (present : s.attempts[a]? = some attempt)
    (found : attempt.legs[i]? = some leg) (at_b : s.attempts[b]? = some old) :
    ∃ new, (s.setLeg a i attempt leg phase).attempts[b]? = some new ∧ new.key = old.key ∧
      new.env = old.env ∧ new.bar = old.bar ∧ ∀ gu, old.GatedAt c gu → new.GatedAt c gu := by
  simp only [State.setLeg, List.getElem?_set]
  have inRange := (List.getElem?_eq_some_iff.mp present).1
  by_cases same : a = b
  · subst same
    cases present.symm.trans at_b
    simp only [↓reduceIte, inRange, Option.some.injEq, exists_eq_left', true_and]
    intro gu gated
    exact (gatedAt_set found).mpr gated
  · simp only [same, ↓reduceIte]
    exact ⟨old, at_b, rfl, rfl, rfl, fun _ gated => gated⟩

section

variable (inv : Inv c s) (present : s.attempts[a]? = some attempt)
  (found : attempt.legs[i]? = some leg)
include inv present found

theorem Inv.setLeg
    (applied : phase.applied = true →
      (s.db leg.route.ru).HoldsAtLeast attempt.key attempt.env.stamp)
    (armed : phase.armed = true → (s.driver leg.route.member).finalSlot ≠ some leg.route.ru)
    (bound : phase.isBound = true → s.retired leg.route.member leg.route.ru = false) :
    Inv c (s.setLeg a i attempt leg phase) := by
  refine inv.withAttempts (fun other member => ?_) (fun other member l inside => ?_)
    fun at_b => getElem?_setLeg phase present found at_b
  · rcases mem_or_eq_of_mem_set member with old | rfl
    · exact inv.attempts other old
    · obtain ⟨done, hosted, gated⟩ := inv.attempts attempt (mem_of_getElem? present)
      refine ⟨fun l inside ok => ?_, fun l inside old => ?_, fun client => ?_⟩
      · rcases mem_or_eq_of_mem_set inside with old | rfl
        · exact done l old ok
        · exact applied ok
      · rcases mem_or_eq_of_mem_set inside with kept | rfl
        · exact hosted l kept old
        · exact hosted leg (mem_of_getElem? found) old
      · refine ⟨(gated client).1, (gated client).2.imp ?_ ?_⟩ <;>
          exact (gatedAt_set found).mpr
  · rcases mem_setLeg present member inside with old | rfl
    · exact .inl old
    · exact .inr ⟨armed, bound⟩

theorem Inv.setLeg_unarmed (unapplied : phase.applied = false) (unarmed : phase.armed = false) :
    Inv c (s.setLeg a i attempt leg phase) := by
  refine inv.setLeg present found ?_ ?_ ?_
  · simp [unapplied]
  · simp [unarmed]
  · intro bound
    rw [LegPhase.armed_of_isBound bound] at unarmed
    cases unarmed

end

end SetLeg

theorem Inv.applyAt_of_bound (inv : Inv c s) {a i : Nat} {attempt : Attempt} {leg : Leg}
    {paused : Bool} {handle : Nat} (present : s.attempts[a]? = some attempt)
    (found : attempt.legs[i]? = some leg) (bound : leg.phase = .bound paused handle) :
    Inv c (s.applyAt leg.route.ru attempt.key attempt.env) := by
  refine inv.withDb (dbLe_applyAt s _ _ _) ?_
  intro n slot old frozen
  refine update_of_ne ?_ _ _
  rintro rfl
  have memberAttempt := mem_of_getElem? present
  have memberLeg := mem_of_getElem? found
  have host := (inv.attempts attempt memberAttempt).hosted leg memberLeg old.1
  have there : leg.route = ⟨n, leg.route.ru⟩ := by
    rw [← hosts_inj host old.2]
  rcases frozen with gone | finalizing
  · have := (inv.retired n _ gone).2.1.unbound attempt memberAttempt leg memberLeg there
    simp [bound, LegPhase.isBound] at this
  · have := (inv.driver n).quiet _ finalizing attempt memberAttempt leg memberLeg there
    simp [bound, LegPhase.armed] at this

theorem Inv.of_finalSlot (inv : Inv c s) {n : Nat} {slot : ReplicaUnit}
    (finalizing : (s.driver n).finalSlot = some slot) :
    MidView c (s.view n) ∧ OldSlot c n slot := by
  obtain ⟨mid, slots, _, _⟩ := inv.driver n
  refine ⟨mid.resolve_left ?_, slots slot (DriverPhase.mem_slots_of_finalSlot finalizing)⟩
  intro idle
  simp [idle, DriverPhase.finalSlot] at finalizing

@[simp] theorem evictIfSame_attempts (s : State) (n : Nat) (ru : ReplicaUnit) (handle : Nat) :
    (s.evictIfSame n ru handle).attempts = s.attempts := by
  unfold State.evictIfSame
  split <;> rfl

@[simp] theorem evictIfSame_view (s : State) (n : Nat) (ru : ReplicaUnit) (handle : Nat) :
    (s.evictIfSame n ru handle).view = s.view := by
  unfold State.evictIfSame
  split <;> rfl

theorem legStep_inv {a i : Nat} {outcome : Outcome} (inv : Inv c s)
    (stepped : legStep a i outcome s = some s') : Inv c s' := by
  unfold legStep at stepped
  cases present : s.attempts[a]? with
  | none => simp [present] at stepped
  | some attempt =>
    cases found : attempt.legs[i]? with
    | none => simp [present, found] at stepped
    | some leg =>
      obtain ⟨route, gates, phase⟩ := leg
      have memberAttempt := mem_of_getElem? present
      have memberLeg := mem_of_getElem? found
      simp only [present, found] at stepped
      cases phase with
      | sent =>
        simp only at stepped
        split at stepped
        · cases stepped
          exact inv.setLeg_unarmed present found rfl rfl
        case isFalse outside =>
          cases stepped
          refine inv.setLeg present found nofun (fun _ finalizing => ?_) nofun
          -- a node that finalizes the slot is mid-reshard: the leg takes the pause
          obtain ⟨⟨gen, _, entered⟩, old, _⟩ : MidView c (s.view route.member) ∧
            OldSlot c route.member route.ru := inv.of_finalSlot finalizing
          exact outside (by simp [parentSlotMidSplit, entered, old, gen])
      | waiting =>
        simp only at stepped
        split at stepped
        · cases stepped
        case isFalse free =>
          cases stepped
          refine inv.setLeg present found nofun (fun _ finalizing => ?_) nofun
          exact free (by simp [State.writeLocked, finalizing])
      | ready paused =>
        simp only at stepped
        split at stepped
        · cases stepped
          exact inv.setLeg_unarmed present found rfl rfl
        case h_2 handle mounted =>
          cases stepped
          refine inv.setLeg present found nofun (fun _ finalizing => ?_) fun _ => ?_
          · cases (inv.driver _).quiet _ finalizing attempt memberAttempt _ memberLeg rfl
          · by_contra gone
            have := (inv.retired _ _ (by simpa using gone)).2.1.unmounted
            simp [mounted] at this
      | bound paused handle =>
        simp only at stepped
        split at stepped
        · cases stepped
          refine (inv.applyAt_of_bound present found rfl).setLeg present found (fun _ => ?_)
            nofun nofun
          simpa [State.applyAt] using
            Store.holdsAtLeast_applyIfNewer_self (s.db route.ru) attempt.key attempt.env
        · cases stepped
          exact inv.setLeg_unarmed present found rfl rfl
        · cases stepped
          exact inv.setLeg_unarmed present found rfl rfl
      | evicting paused handle =>
        cases stepped
        exact (inv.evictIfSame _ _ _).setLeg_unarmed (by simpa using present) found rfl rfl
      | finishing paused ok =>
        cases stepped
        exact inv.setLeg present found
          (fun applied => (inv.attempts attempt memberAttempt).applied _ memberLeg applied)
          nofun nofun
      | done ok => cases stepped

theorem DriverInv.of_nonfinal {n : Nat} {phase : DriverPhase}
    (mid : phase = .idle ∨ MidView c (s.view n))
    (slots : ∀ slot ∈ phase.slots, OldSlot c n slot) (nonfinal : phase.finalSlot = none) :
    DriverInv c s n phase := by
  refine ⟨mid, slots, by simp [nonfinal], ?_⟩
  unfold FinalCopy
  split <;> simp_all [DriverPhase.finalSlot]

theorem DriverInv.of_flag {n : Nat} {phase : DriverPhase} {flag : Bool} {slot : ReplicaUnit}
    (mid : MidView c (s.view n)) (slots : ∀ ru ∈ phase.slots, OldSlot c n ru)
    (finalSlot : phase.finalSlot = if flag then some slot else none)
    (quiet : flag = true → Quiet s n slot) (final : flag = true → FinalCopy c s phase) :
    DriverInv c s n phase := by
  cases flag with
  | false => exact .of_nonfinal (.inr mid) slots finalSlot
  | true =>
    refine ⟨.inr mid, slots, fun other finalizing => ?_, final rfl⟩
    cases finalSlot.symm.trans finalizing
    exact quiet rfl

theorem Inv.withMarkers (inv : Inv c s) (caughtUp : List (Nat × UInt8)) (cutOver : List Nat) :
    Inv c { s with caughtUp, cutOver } :=
  { inv with
    driver := fun n => (inv.driver n).congr rfl rfl rfl
    attempts := fun attempt member => (inv.attempts attempt member).congr rfl
    retired := inv.retired_congr rfl rfl rfl }

theorem Inv.abandon (inv : Inv c s) {n : Nat} (final : Bool) {todo : List ReplicaUnit}
    (mid : MidView c (s.view n)) (slots : ∀ slot ∈ todo, OldSlot c n slot) :
    Inv c (s.setDriver n (abandon final todo)) := by
  apply inv.setDriver
  unfold Replicated.abandon
  cases final with
  | true => exact .of_nonfinal (.inl rfl) (by simp [DriverPhase.slots]) rfl
  | false => exact .of_nonfinal (.inr mid) slots rfl

theorem Inv.completeSlot (inv : Inv c s) {n : Nat} {final : Bool} {slot : ReplicaUnit}
    {todo : List ReplicaUnit} (mid : MidView c (s.view n))
    (slots : ∀ ru ∈ slot :: todo, OldSlot c n ru)
    (copied : final = true → Quiet s n slot ∧ CopiedExcept c s slot []) :
    Inv c (completeSlot n final slot todo s) := by
  unfold Replicated.completeSlot
  cases final with
  | false => exact inv.setDriver (.of_nonfinal (.inr mid) slots rfl)
  | true =>
    have later : ∀ ru ∈ todo, OldSlot c n ru := fun ru member => slots ru (by simp [member])
    have base : Inv c ((s.unmount n slot).setDriver n (.finalizing todo)) :=
      (inv.unmount n slot).setDriver (.of_nonfinal (.inr mid) later rfl)
    obtain ⟨quiet, delivered⟩ := copied rfl
    refine { base with
      driver := fun m => (base.driver m).congr rfl rfl rfl
      attempts := fun attempt member => (base.attempts attempt member).congr rfl
      retired := fun m ru gone => ?_
      advanced := fun m ahead k below ru position hosted => ?_ }
    · by_cases here : m = n ∧ ru = slot
      · obtain ⟨rfl, rfl⟩ := here
        refine ⟨slots ru (by simp), ⟨?_, ?_⟩, delivered⟩
        · change ((update s.mounts m ((s.mounts m).erase ru)) m).lookup ru = none
          rw [update_self, AList.lookup_erase]
        · intro attempt member leg inside there
          have := quiet attempt member leg inside there
          cases phase : leg.phase <;> simp_all [LegPhase.armed, LegPhase.isBound]
      · have before : s.retired m ru = true := by
          by_cases same : m = n
          · subst same
            have apart : ru ≠ slot := fun eq => here ⟨rfl, eq⟩
            simpa [update_of_ne apart] using gone
          · simpa [update_of_ne same] using gone
        have kept := base.retired m ru before
        exact ⟨kept.1, ⟨kept.2.1.unmounted, kept.2.1.unbound⟩, kept.2.2⟩
    · have before := inv.advanced m ahead k below ru position hosted
      by_cases same : m = n
      · subst same
        by_cases hit : ru = slot
        · simp [hit]
        · simpa [update_of_ne hit] using before
      · simpa [update_of_ne same] using before

theorem Inv.addAttempt (inv : Inv c s) {attempt : Attempt} (new : AttemptInv c s attempt)
    (sent : ∀ leg ∈ attempt.legs, leg.phase = .sent) :
    Inv c { s with attempts := s.attempts ++ [attempt] } := by
  refine inv.withAttempts (fun other member => ?_) (fun other member leg inside => ?_)
    fun {b old} at_b => ⟨old, ?_, rfl, rfl, rfl, fun _ => id⟩
  · rcases mem_snoc.mp member with old | rfl
    · exact inv.attempts other old
    · exact new
  · rcases mem_snoc.mp member with old | rfl
    · exact .inl ⟨other, old, inside⟩
    · rw [sent leg inside]
      exact .inr ⟨nofun, nofun⟩
  · rw [List.getElem?_append_left (List.getElem?_eq_some_iff.mp at_b).1, at_b]

theorem fanOut_sent (key : Bytes) (env : Envelope) (client : Bool) (route : WriteRoute) :
    ∀ leg ∈ (fanOut key env client route).legs, leg.phase = .sent := by
  intro leg mem
  rcases mem_append.mp mem with gating | effort
  · obtain ⟨_, _, rfl⟩ := mem_map.mp gating
    rfl
  · obtain ⟨_, _, rfl⟩ := mem_map.mp effort
    rfl

theorem gatedAt_fanOut {key : Bytes} {env : Envelope} {client : Bool} {route : WriteRoute}
    {gu gu' : GenUnit} (auth : route.auth = legsAt gu (c.members gu')) :
    (fanOut key env client route).GatedAt c gu := by
  unfold Attempt.GatedAt fanOut
  rw [← map_ru_legsAt c gu gu', auth]
  simp [filter_append, filter_map, comp_def]

theorem Inv.startPass (inv : Inv c s) {n : Nat} {final : Bool} {slot : ReplicaUnit}
    {pass : Nat} {todo : List ReplicaUnit} (mid : MidView c (s.view n))
    (slots : ∀ ru ∈ slot :: todo, OldSlot c n ru) (quiet : final = true → Quiet s n slot) :
    Inv c (startPass c n final slot pass todo s) := by
  have later : ∀ ru ∈ todo, OldSlot c n ru := fun ru member => slots ru (by simp [member])
  -- a scan lists all there is to deliver
  have scanned : CopiedExcept c s slot (s.db slot).scan := by
    intro key env _ stored
    exact .inl (Store.mem_scan.mpr stored)
  unfold Replicated.startPass
  dsimp only
  split
  · exact inv.abandon final mid later
  · split
    case isTrue split =>
      split
      · refine inv.setDriver (.of_flag mid slots (DriverPhase.finalSlot_copying ..) quiet ?_)
        rintro rfl
        exact ⟨split, scanned⟩
      · exact inv.abandon final mid later
    case isFalse merge =>
      refine inv.setDriver (.of_flag mid slots (DriverPhase.finalSlot_forwarding ..) quiet ?_)
      rintro rfl
      exact ⟨by simpa using merge, scanned⟩

theorem copyChild_eq (split : c.isSplit = true) {slot : ReplicaUnit} {key : Bytes}
    (own : unitForHash (c.hash key) c.count = slot.unit.id) :
    (copyChild c slot key).1 = ⟨c.otherOf key, slot.replica⟩ := by
  have twice : c.next.n = 2 * c.count.n := by
    have grows : c.next.n > c.count.n := by simpa [Cluster.isSplit] using split
    rcases c.oneStep with twice | half
    · exact twice
    · omega
  unfold copyChild Cluster.otherOf
  split
  case isTrue low => rw [low]
  case isFalse high =>
    rcases unitForHash_double_mem_childUnits twice (c.hash key) with low | up
    · exact absurd (low.trans own) high
    · rw [up, own]

theorem copyChild_gen (c : Cluster) (slot : ReplicaUnit) (key : Bytes) :
    (copyChild c slot key).1.unit.gen = c.gen + 1 := by
  unfold copyChild
  split <;> rfl

section

variable (inv : Inv c s)
include inv

theorem Inv.applyAt_next {ru : ReplicaUnit} (ahead : ru.unit.gen = c.gen + 1) (key : Bytes)
    (env : Envelope) : Inv c (s.applyAt ru key env) := by
  refine inv.withDb (dbLe_applyAt s ru key env) ?_
  intro n slot old _
  refine update_of_ne ?_ _ _
  rintro rfl
  have := old.1
  omega

theorem Inv.copyEntry {n : Nat} {final : Bool} {job : CopyJob} {key : Bytes} {env : Envelope}
    {rest : List (Bytes × Envelope)} {todo : List ReplicaUnit} {outcome : Outcome}
    (at_ : s.driver n = .copying final job todo) (head : job.rest = (key, env) :: rest) :
    Inv c (copyEntry c n final job key env rest todo outcome s) := by
  obtain ⟨mid, slots, quiet, copied⟩ : DriverInv c s n _ := at_ ▸ inv.driver n
  have mid : MidView c (s.view n) := mid.resolve_left nofun
  have later : ∀ ru ∈ todo, OldSlot c n ru := fun ru member =>
    slots ru (mem_cons_of_mem _ member)
  unfold Replicated.copyEntry
  cases outcome with
  | failed evict =>
    cases evict with
    | true =>
      exact (inv.evictIfSame _ _ _).abandon final (by simpa using mid) later
    | false => exact inv.abandon final mid later
  | ok =>
    refine (inv.applyAt_next (copyChild_gen c job.slot key) key env).setDriver
      (.of_flag mid slots (DriverPhase.finalSlot_copying ..) ?_ ?_)
    · rintro rfl
      exact quiet job.slot rfl
    · rintro rfl
      obtain ⟨split, except⟩ := copied
      refine ⟨split, ?_⟩
      have old := (slots job.slot mem_cons_self).1
      have apart : job.slot ≠ (copyChild c job.slot key).1 := by
        intro same
        have := congrArg (fun ru : ReplicaUnit => ru.unit.gen) same
        simp only [copyChild_gen] at this
        omega
      have le := dbLe_applyAt s (copyChild c job.slot key).1 key env
      intro key' env' own stored
      change ((update s.db _ _) job.slot).get key' = some env' at stored
      rw [update_of_ne apart] at stored
      rw [head] at except
      rcases except key' env' own stored with waiting | delivered
      · rcases mem_cons.mp waiting with first | rest
        · cases first
          right
          simp only [Delivered, split, ↓reduceIte]
          rw [← copyChild_eq split own]
          change ((update s.db _ _) _).HoldsAtLeast _ _
          rw [update_self]
          exact Store.holdsAtLeast_applyIfNewer_self _ _ _
        · exact .inl rest
      · exact .inr (le.delivered delivered)

theorem Inv.beginForward {n : Nat} {final : Bool} {slot : ReplicaUnit} {key : Bytes}
    {env : Envelope} {rest : List (Bytes × Envelope)} {todo : List ReplicaUnit}
    (at_ : s.driver n = .forwarding final slot ((key, env) :: rest) none todo) :
    let survivor : GenUnit := ⟨c.gen + 1, slot.unit.id % c.next.n⟩
    Inv c { s.setDriver n
        (.forwarding final slot ((key, env) :: rest) (some s.attempts.length) todo) with
      attempts := s.attempts ++ [fanOut key env false (survivorRoute c survivor)] } := by
  intro survivor
  obtain ⟨mid, slots, quiet, copied⟩ : DriverInv c s n _ := at_ ▸ inv.driver n
  let attempt := fanOut key env false (survivorRoute c survivor)
  have sent := fanOut_sent key env false (survivorRoute c survivor)
  have new : AttemptInv c s attempt := by
    refine ⟨fun leg member => by simp [sent leg member, LegPhase.applied], ?_, by
      simp [attempt, fanOut]⟩
    intro leg member old
    rcases mem_append.mp member with gating | effort
    · obtain ⟨route, inside, rfl⟩ := mem_map.mp gating
      obtain ⟨_, _, address⟩ := mem_legsAt.mp inside
      have : route.ru.unit.gen = c.gen + 1 := by simp [address, survivor]
      simp only at old
      omega
    · simp [survivorRoute] at effort
  refine (inv.addAttempt new sent).setDriver (.of_flag (mid.resolve_left nofun) slots
    (DriverPhase.finalSlot_forwarding ..) ?_ ?_)
  · rintro rfl old member leg inside there
    rcases mem_snoc.mp member with before | rfl
    · exact quiet slot rfl old before leg inside there
    · rw [sent leg inside]
      rfl
  · rintro rfl
    refine ⟨copied, fun entry first => ⟨attempt, by simp [attempt], ?_⟩⟩
    obtain rfl : (key, env) = entry := by simpa using first
    have auth : (survivorRoute c survivor).auth = legsAt survivor (c.members survivor) := rfl
    refine ⟨rfl, rfl, ?_, gatedAt_fanOut auth⟩
    simp [attempt, fanOut, survivorRoute, Cluster.bar, c.placed]

theorem Inv.endForward {n a : Nat} {final : Bool} {slot : ReplicaUnit} {entry : Bytes × Envelope}
    {rest : List (Bytes × Envelope)} {todo : List ReplicaUnit} {attempt : Attempt}
    (at_ : s.driver n = .forwarding final slot (entry :: rest) (some a) todo)
    (present : s.attempts[a]? = some attempt) (reached : attempt.bar ≤ attempt.acks) :
    Inv c (s.setDriver n (.forwarding final slot rest none todo)) := by
  obtain ⟨mid, slots, quiet, copied⟩ : DriverInv c s n _ := at_ ▸ inv.driver n
  refine inv.setDriver (.of_flag (mid.resolve_left nofun) slots
    (DriverPhase.finalSlot_forwarding ..) ?_ ?_)
  · rintro rfl
    exact quiet slot rfl
  · rintro rfl
    obtain ⟨⟨merge, except⟩, forward⟩ := copied
    obtain ⟨forwarded, found, key, env, bar, gated⟩ := forward entry (by simp)
    cases present.symm.trans found
    have half : c.count.n = 2 * c.next.n := by
      have shrinks : ¬ c.next.n > c.count.n := by simpa [Cluster.isSplit] using merge
      have := c.count.pos
      rcases c.oneStep with twice | half
      · omega
      · exact half
    refine ⟨merge, fun key' env' own stored => ?_⟩
    rcases except key' env' own stored with waiting | delivered
    · rcases mem_cons.mp waiting with first | later
      · right
        have acks := (inv.attempts attempt (mem_of_getElem? present)).acks_le_copies gated
        cases first
        have survivor : c.otherOf key' =
            ⟨c.gen + 1, slot.unit.id % c.next.n⟩ := by
          rw [Cluster.otherOf, ← unitForHash_mod_of_double half (c.hash key'), own]
        simp only [Delivered, merge, Bool.false_eq_true, ↓reduceIte, survivor]
        rw [key, env] at acks
        exact bar ▸ reached.trans acks
      · exact .inl later
    · exact .inr delivered

theorem Inv.setView {n : Nat} {gs : GenState} (idle : s.driver n = .idle)
    (known : gs = GenState.steady c.gen c.count ∨ MidView c gs ∨
      gs = GenState.steady (c.gen + 1) c.next)
    (advanced : gs.gen = c.gen + 1 → ∀ k < c.count.n, ∀ ru ∈ c.positions ⟨c.gen, k⟩,
      c.hosts n ru = true → s.retired n ru = true)
    : Inv c (s.setView n gs) :=
  { inv with
    views := (forall_update_iff s.view fun _ gs => gs = GenState.steady c.gen c.count ∨
      MidView c gs ∨ gs = GenState.steady (c.gen + 1) c.next).mpr
        ⟨known, fun m _ => inv.views m⟩
    driver := by
      intro m
      obtain ⟨mid, slots, quiet, final⟩ := inv.driver m
      refine ⟨?_, slots, quiet, final⟩
      by_cases same : m = n
      · subst same
        exact .inl idle
      · simpa [State.setView, update_of_ne same] using mid
    attempts := fun attempt member => (inv.attempts attempt member).congr rfl
    retired := inv.retired_congr rfl rfl rfl
    advanced := (forall_update_iff s.view fun m gs => gs.gen = c.gen + 1 → _).mpr
      ⟨advanced, fun m _ => inv.advanced m⟩ }

end

theorem quiet_of_noReader {n : Nat} {slot : ReplicaUnit}
    (noReader : s.hasReader n slot.unit.id = false)
    (settled : ∀ attempt ∈ s.attempts, ∀ leg ∈ attempt.legs, leg.route = ⟨n, slot⟩ →
      leg.phase.unpaused = false) : Quiet s n slot := by
  intro attempt mem leg inside there
  have free : leg.phase.holdsPause = false := by
    simp only [State.hasReader, any_eq_false, Bool.not_eq_true, Bool.and_eq_false_iff,
      beq_eq_false_iff_ne, ne_eq] at noReader
    simpa [there] using noReader attempt mem leg inside
  have late := settled attempt mem leg inside there
  cases phase : leg.phase <;>
    simp_all [LegPhase.holdsPause, LegPhase.unpaused, LegPhase.armed]

theorem driveStep_inv {n : Nat} {pick : ReplicaUnit} {outcome : Outcome} (inv : Inv c s)
    (safe : careful c s (.drive n pick outcome) = true)
    (stepped : driveStep c n pick outcome s = some s') : Inv c s' := by
  obtain ⟨phase, position⟩ : ∃ phase, s.driver n = phase := ⟨_, rfl⟩
  obtain ⟨mid, slots, quiet, final⟩ : DriverInv c s n phase := position ▸ inv.driver n
  unfold driveStep at stepped
  unfold careful at safe
  simp only [position] at stepped safe
  by_cases idle : phase = .idle
  · subst idle
    cases stepped
  have entered := mid.resolve_left idle
  -- the driver may give up the slot it is at
  have leave : ∀ {slot todo} flag, phase.slots = slot :: todo →
      Inv c (s.setDriver n (abandon flag todo)) := fun flag same =>
    inv.abandon flag entered fun ru member => slots ru (same ▸ mem_cons_of_mem _ member)
  cases phase with
  | idle => exact absurd rfl idle
  | driving todo =>
    cases todo with
    | nil =>
      cases stepped
      exact inv.abandon true entered slots
    | cons first rest =>
      simp only at stepped
      split at stepped
      case isFalse => cases stepped
      case isTrue chosen =>
        have later : ∀ ru ∈ (first :: rest).erase pick, OldSlot c n ru :=
          fun ru member => slots ru (mem_of_mem_erase member)
        split at stepped
        · cases stepped
          exact inv.setDriver (.of_nonfinal (.inr entered) later rfl)
        · cases stepped
          refine inv.setDriver (.of_nonfinal (.inr entered) ?_ rfl)
          intro ru member
          rcases mem_cons.mp member with rfl | other
          · exact slots ru chosen
          · exact later ru other
  | finalizing todo =>
    cases todo with
    | nil =>
      simp only [decide_eq_true_eq] at safe
      cases stepped
      have parked : Inv c (s.setDriver n .idle) :=
        inv.setDriver (.of_nonfinal (.inl rfl) nofun rfl)
      refine parked.setView (by simp [State.setDriver]) (.inr (.inr ?_)) (fun _ => safe)
      simp [GenState.advance, entered.1]
    | cons first rest =>
      simp only [decide_eq_true_eq] at safe stepped
      obtain ⟨chosen, rfl⟩ := of_guard stepped
      refine inv.setDriver ⟨.inr entered, fun ru member => ?_, fun slot finalizing => ?_, trivial⟩
      · rcases mem_cons.mp member with rfl | other
        · exact slots ru chosen.1
        · exact slots ru (mem_of_mem_erase other)
      · cases finalizing
        exact quiet_of_noReader chosen.2 safe
  | starting flag slot pass todo =>
    simp only at stepped
    split at stepped
    · cases stepped
      refine inv.startPass entered slots ?_
      rintro rfl
      exact quiet slot rfl
    · cases stepped
      exact leave flag rfl
  | copying flag job todo =>
    simp only at stepped
    split at stepped
    case h_1 done =>
      split at stepped
      · split at stepped
        · cases stepped
          have finalSlot : (DriverPhase.starting flag job.slot (job.pass + 1) todo).finalSlot =
              if flag then some job.slot else none := by cases flag <;> rfl
          refine inv.setDriver (.of_flag entered slots finalSlot ?_ fun _ => trivial)
          rintro rfl
          exact quiet job.slot rfl
        · cases stepped
          exact leave flag rfl
      · cases stepped
        refine inv.completeSlot entered slots ?_
        rintro rfl
        exact ⟨quiet job.slot rfl, done ▸ final.2⟩
    case h_2 key env rest head =>
      cases stepped
      exact inv.copyEntry position head
  | forwarding flag slot rest waiting todo =>
    cases rest with
    | nil =>
      cases stepped
      refine inv.completeSlot entered slots ?_
      rintro rfl
      cases waiting with
      | none => exact ⟨quiet slot rfl, final.2⟩
      | some a => exact ⟨quiet slot rfl, final.1.2⟩
    | cons entry rest =>
      cases waiting with
      | none =>
        cases stepped
        exact inv.beginForward position
      | some a =>
        simp only at stepped
        split at stepped
        case h_1 attempt present =>
          obtain ⟨reached, rfl⟩ := of_guard stepped
          exact inv.endForward position present reached
        case h_2 =>
          cases stepped
          exact leave flag rfl
  | marking slot todo =>
    simp only at stepped
    split at stepped
    · cases stepped
      have marked : Inv c (s.setDriver n (.gating slot todo)) :=
        inv.setDriver (.of_nonfinal (.inr entered) slots rfl)
      exact marked.withMarkers _ _
    · cases stepped
      exact leave false rfl
  | gating slot todo =>
    cases stepped
    unfold gate
    dsimp only
    split
    · split
      · exact (leave false rfl).withMarkers _ _
      · exact leave false rfl
    · split
      · have published : Inv c (s.setDriver n
            (.gatingHigh (slot.unit.id % c.next.n + c.next.n) todo)) :=
          inv.setDriver (.of_nonfinal (.inr entered)
            (fun ru member => slots ru (mem_cons_of_mem _ member)) rfl)
        exact published.withMarkers _ _
      · exact leave false rfl
  | gatingHigh unit todo =>
    simp only at stepped
    split at stepped
    · cases stepped
      exact (inv.abandon false entered slots).withMarkers _ _
    · cases stepped
      exact inv.abandon false entered slots

theorem writeRoute_of_steady (n gen : Nat) (count : UnitCount) (h : ShardHash) :
    (c.viewOf n (GenState.steady gen count)).writeRoute c.wc h =
      { auth := legsAt ⟨gen, unitForHash h count⟩ (c.members ⟨gen, unitForHash h count⟩)
        supp := [], bar := c.bar } := by
  have resolved : (c.viewOf n (GenState.steady gen count)).gs.resolveGenUnit h =
      ⟨gen, unitForHash h count⟩ := GenState.resolveGenUnit_steady gen count
  rw [View.writeRoute_of_stable _ rfl rfl rfl, resolved, unitReplicas_viewOf]
  simp [Cluster.bar, c.placed]

theorem writeRoute_of_mid {n : Nat} {gs : GenState} (mid : MidView c gs) (key : Bytes) :
    ∃ home, (c.viewOf n gs).writeRoute c.wc (c.hash key) =
        { auth := legsAt (c.parentOf key) (c.members (c.parentOf key))
          supp := legsAt (c.otherOf key) (c.members home), bar := c.bar } ∨
      (c.viewOf n gs).writeRoute c.wc (c.hash key) =
        { auth := legsAt (c.otherOf key) (c.members home)
          supp := legsAt (c.parentOf key) (c.members (c.parentOf key)), bar := c.bar } := by
  obtain ⟨gen, count, entered⟩ := mid
  obtain ⟨g, k, next, flipped⟩ := gs
  subst gen count entered
  have nonempty : (c.members ⟨c.gen, unitForHash (c.hash key) c.count⟩) ≠ [] := by
    simpa using (c.viewOf n ⟨c.gen, c.count, some c.next, flipped⟩).unitReplicas_ne_nil
      ⟨c.gen, unitForHash (c.hash key) c.count⟩
  refine ⟨if c.next.n > c.count.n then c.parentOf key else c.otherOf key, ?_⟩
  have routes := fun gu => unitReplicas_viewOf c n ⟨c.gen, c.count, some c.next, flipped⟩ gu
  have located : (c.viewOf n ⟨c.gen, c.count, some c.next, flipped⟩).gs =
      ⟨c.gen, c.count, some c.next, flipped⟩ := rfl
  by_cases moved : unitForHash (c.hash key) c.count ∈ flipped
  · right
    simp only [View.writeRoute, View.routedReplicasForReshard, located, routes, nonempty,
      ↓reduceIte, GenState.hasCutOver, moved, decide_true, Cluster.bar, c.placed,
      Cluster.parentOf, Cluster.otherOf]
    split <;> rfl
  · left
    simp only [View.writeRoute, View.routedReplicasForReshard, located, routes, nonempty,
      ↓reduceIte, GenState.hasCutOver, moved, decide_false, Bool.false_eq_true, Cluster.bar,
      c.placed, Cluster.parentOf, Cluster.otherOf]
    split <;> rfl

theorem Inv.writeRoute_cases (inv : Inv c s) (n : Nat) (key : Bytes) :
    ∃ home auth supp, (c.viewOf n (s.view n)).writeRoute c.wc (c.hash key) =
        { auth, supp, bar := c.bar } ∧
      (auth = legsAt (c.parentOf key) (c.members (c.parentOf key)) ∨
        auth = legsAt (c.otherOf key) (c.members home)) ∧
      ∀ leg ∈ supp, leg ∈ legsAt (c.parentOf key) (c.members (c.parentOf key)) ∨
        leg ∈ legsAt (c.otherOf key) (c.members home) := by
  rcases inv.views n with steady | mid | advanced
  · rw [steady, writeRoute_of_steady]
    exact ⟨c.parentOf key, _, _, rfl, .inl rfl, nofun⟩
  · obtain ⟨home, parent | other⟩ := writeRoute_of_mid (n := n) mid key
    · exact ⟨home, _, _, parent, .inl rfl, fun _ => .inr⟩
    · exact ⟨home, _, _, other, .inr rfl, fun _ => .inl⟩
  · rw [advanced, writeRoute_of_steady]
    exact ⟨c.otherOf key, _, _, rfl, .inr rfl, nofun⟩

theorem Inv.newWrite (inv : Inv c s) (n : Nat) (key : Bytes) (env : Envelope) :
    AttemptInv c s
      (fanOut key env true ((c.viewOf n (s.view n)).writeRoute c.wc (c.hash key))) := by
  have sent := fanOut_sent key env true ((c.viewOf n (s.view n)).writeRoute c.wc (c.hash key))
  obtain ⟨home, auth, supp, routed, gates, others⟩ := inv.writeRoute_cases n key
  have hosted : ∀ leg : RoutedReplica,
      leg ∈ legsAt (c.parentOf key) (c.members (c.parentOf key)) ∨
        leg ∈ legsAt (c.otherOf key) (c.members home) →
      leg.ru.unit.gen = c.gen → c.hosts leg.member leg.ru = true := by
    rintro leg (parent | other) old
    · exact hosts_of_mem_legsAt parent
    · obtain ⟨_, _, address⟩ := mem_legsAt.mp other
      simp only [address, Cluster.otherOf] at old
      omega
  refine ⟨fun leg member => by simp [sent leg member, LegPhase.applied], ?_, fun _ => ?_⟩
  · intro leg member
    rw [routed] at member
    rcases mem_append.mp member with gating | effort
    · obtain ⟨route, inside, rfl⟩ := mem_map.mp gating
      rcases gates with rfl | rfl
      · exact hosted route (.inl inside)
      · exact hosted route (.inr inside)
    · obtain ⟨route, inside, rfl⟩ := mem_map.mp effort
      exact hosted route (others route inside)
  · rw [routed]
    exact ⟨rfl, gates.imp gatedAt_fanOut gatedAt_fanOut⟩

theorem Inv.ack (inv : Inv c s) {attempt : Attempt} (mem : attempt ∈ s.attempts)
    (client : attempt.client = true) (met : attempt.bar ≤ attempt.acks) :
    Inv c { s with acked := (attempt.key, attempt.env.stamp) :: s.acked } :=
  { inv with
    driver := fun n => (inv.driver n).congr rfl rfl rfl
    attempts := fun other present => (inv.attempts other present).congr rfl
    retired := inv.retired_congr rfl rfl rfl
    acked := by
      intro write listed
      rcases mem_cons.mp listed with rfl | old
      · have own := inv.attempts attempt mem
        obtain ⟨bar, gated⟩ := own.gated client
        rw [bar] at met
        exact gated.imp (fun at_unit => met.trans (own.acks_le_copies at_unit))
          (fun at_unit => met.trans (own.acks_le_copies at_unit))
      · exact inv.acked write old }

theorem hosts_of_desired {n : Nat} {gs : GenState} {ru : ReplicaUnit}
    (known : gs = GenState.steady c.gen c.count ∨ MidView c gs ∨
      gs = GenState.steady (c.gen + 1) c.next)
    (desired : c.desired gs n ru = true) (old : ru.unit.gen = c.gen) : c.hosts n ru = true := by
  simp only [Cluster.desired, Bool.or_eq_true] at desired
  rcases desired with owned | ahead
  · exact hosts_of_owns owned
  · rcases known with rfl | ⟨gen, -, entered⟩ | rfl
    · simp [GenState.steady] at ahead
    · simp only [entered] at ahead
      split at ahead
      · simp only [Bool.and_eq_true, beq_iff_eq] at ahead
        omega
      · exact hosts_of_owns ahead
    · simp [GenState.steady] at ahead

theorem Inv.finishAcquire (inv : Inv c s) {n : Nat} {ru : ReplicaUnit}
    (started : ru ∈ s.acquiring n)
    (early : (s.view n).gen = c.gen + 1 → ru.unit.gen ≠ c.gen) :
    Inv c { s with
      mounts := update s.mounts n ((s.mounts n).insert ru s.handles)
      handles := s.handles + 1
      acquiring := update s.acquiring n ((s.acquiring n).erase ru)
      retired := update s.retired n
        (update (s.retired n) ru false) } :=
  { inv with
    driver := fun m => (inv.driver m).congr rfl rfl rfl
    mounted := by
      refine (forall_update_iff s.mounts fun m mounts =>
        ∀ ru ∈ mounts, ru.unit.gen = c.gen → c.hosts m ru = true).mpr
          ⟨fun slot present => ?_, fun m _ => inv.mounted m⟩
      rcases (AList.mem_insert _).mp present with rfl | before
      · exact inv.acquiring n slot started
      · exact inv.mounted n slot before
    acquiring := (forall_update_iff s.acquiring fun m acquiring =>
      ∀ ru ∈ acquiring, ru.unit.gen = c.gen → c.hosts m ru = true).mpr
        ⟨fun slot present => inv.acquiring n slot (mem_of_mem_erase present),
          fun m _ => inv.acquiring m⟩
    attempts := fun attempt member => (inv.attempts attempt member).congr rfl
    retired := by
      intro m slot gone
      by_cases same : m = n
      · subst same
        simp only [update_self] at gone
        by_cases mounted : slot = ru
        · subst mounted
          simp at gone
        · simp only [update_of_ne mounted] at gone
          obtain ⟨old, shut, copied⟩ := inv.retired m slot gone
          refine ⟨old, ⟨?_, shut.unbound⟩, copied⟩
          simpa [AList.lookup_insert_ne mounted] using shut.unmounted
      · simp only [update_of_ne same] at gone
        obtain ⟨old, shut, copied⟩ := inv.retired m slot gone
        refine ⟨old, ⟨?_, shut.unbound⟩, copied⟩
        simpa [update_of_ne same] using shut.unmounted
    advanced := by
      intro m ahead k below slot position hosted
      have before := inv.advanced m ahead k below slot position hosted
      by_cases same : m = n
      · subst same
        have other : slot ≠ ru := by
          rintro rfl
          obtain ⟨p, -, rfl⟩ := mem_map.mp position
          exact early ahead rfl
        simpa [update_of_ne other] using before
      · simpa [update_of_ne same] using before }

theorem Inv.startAcquire (inv : Inv c s) {n : Nat} {ru : ReplicaUnit}
    (hosted : ru.unit.gen = c.gen → c.hosts n ru = true) :
    Inv c { s with acquiring := update s.acquiring n (ru :: s.acquiring n) } :=
  { inv with
    driver := fun m => (inv.driver m).congr rfl rfl rfl
    acquiring := by
      refine (forall_update_iff s.acquiring fun m acquiring =>
        ∀ ru ∈ acquiring, ru.unit.gen = c.gen → c.hosts m ru = true).mpr
          ⟨fun slot present => ?_, fun m _ => inv.acquiring m⟩
      rcases mem_cons.mp present with rfl | before
      · exact hosted
      · exact inv.acquiring n slot before
    attempts := fun attempt member => (inv.attempts attempt member).congr rfl
    retired := inv.retired_congr rfl rfl rfl }

theorem State.driver_of_isIdle {n : Nat} (idle : s.isIdle n = true) : s.driver n = .idle := by
  unfold State.isIdle at idle
  split at idle
  · assumption
  · cases idle

theorem Inv.mid (inv : Inv c s) {n : Nat} (entered : (s.view n).nextCount.isSome = true) :
    MidView c (s.view n) := by
  rcases inv.views n with steady | mid | advanced
  · rw [steady] at entered
    cases entered
  · exact mid
  · rw [advanced] at entered
    cases entered

theorem Inv.ownedParentSlots_old (inv : Inv c s) {n : Nat} (mid : MidView c (s.view n)) :
    ∀ slot ∈ s.ownedParentSlots n (s.view n).gen, OldSlot c n slot := by
  intro slot member
  simp only [State.ownedParentSlots, mem_filter, beq_iff_eq] at member
  have old := member.2.trans mid.1
  exact ⟨old, inv.mounted n slot (AList.mem_keys.mp member.1) old⟩

theorem step_inv {action : Action} (inv : Inv c s) (safe : careful c s action = true)
    (stepped : (machine c).step action s = some s') : Inv c s' := by
  cases action with
  | write n key env =>
    obtain ⟨-, rfl⟩ := of_guard stepped
    exact inv.addAttempt (inv.newWrite n key env) (fanOut_sent _ _ _ _)
  | leg a i outcome => exact legStep_inv inv stepped
  | ack a =>
    simp only [machine, step] at stepped
    split at stepped
    case h_1 => cases stepped
    case h_2 attempt found =>
      obtain ⟨⟨client, met⟩, rfl⟩ := of_guard stepped
      exact inv.ack (mem_of_getElem? found) client met
  | enter n =>
    obtain ⟨⟨idle, steady⟩, rfl⟩ := of_guard stepped
    refine inv.setView (State.driver_of_isIdle idle) (.inr (.inl ?_)) ?_
    · rw [steady]
      exact ⟨rfl, rfl, rfl⟩
    · rw [steady]
      intro ahead
      exact absurd ahead (by simp [GenState.enter, GenState.steady])
  | observe n k =>
    obtain ⟨⟨idle, entered, -⟩, rfl⟩ := of_guard stepped
    have mid := inv.mid entered
    refine inv.setView (State.driver_of_isIdle idle) (.inr (.inl mid)) ?_
    intro ahead
    exact absurd (mid.1.symm.trans ahead) (by omega)
  | beginDrive n =>
    obtain ⟨⟨-, entered⟩, rfl⟩ := of_guard stepped
    have mid := inv.mid entered
    exact inv.setDriver (.of_nonfinal (.inr mid) (inv.ownedParentSlots_old mid) rfl)
  | beginFinalize n =>
    obtain ⟨⟨-, all⟩, rfl⟩ := of_guard stepped
    simp only [GenState.allCutOver, Bool.and_eq_true] at all
    have mid := inv.mid all.1
    exact inv.setDriver (.of_nonfinal (.inr mid) (inv.ownedParentSlots_old mid) rfl)
  | drive n pick outcome => exact driveStep_inv inv safe stepped
  | startAcquire n ru =>
    obtain ⟨⟨-, desired, -⟩, rfl⟩ := of_guard stepped
    exact inv.startAcquire (hosts_of_desired (inv.views n) desired)
  | finishAcquire n ru =>
    obtain ⟨started, rfl⟩ := of_guard stepped
    refine inv.finishAcquire started ?_
    intro ahead old
    simp [careful, ahead, old] at safe
  | release n ru =>
    obtain ⟨-, rfl⟩ := of_guard stepped
    exact inv.unmount n ru

theorem Initial.inv (initial : Initial c s) : Inv c s where
  views := fun n => .inl (initial.steady n)
  driver := by
    intro n
    rw [initial.idle n]
    exact .of_nonfinal (.inl rfl) (by simp [DriverPhase.slots]) rfl
  mounted := fun n ru present _ => hosts_of_owns (initial.mounted n ru present)
  acquiring := by simp [initial.noAcquire]
  attempts := by simp [initial.noAttempts]
  retired := by simp [initial.notRetired]
  advanced := by simp [initial.steady, GenState.steady]
  acked := fun write member => .inl (initial.acked write member)

theorem hosts_positions (c : Cluster) {gu : GenUnit} {ru : ReplicaUnit}
    (position : ru ∈ c.positions gu) : ∃ n ∈ c.nodes, c.hosts n ru = true := by
  rw [← map_ru_legsAt c gu gu] at position
  obtain ⟨leg, mem, rfl⟩ := mem_map.mp position
  obtain ⟨i, found, -⟩ := mem_legsAt.mp mem
  exact ⟨leg.member, c.known gu _ (mem_of_getElem? found), hosts_of_mem_legsAt mem⟩

theorem Inv.delivered_of_finalized (inv : Inv c s) (finalized : Finalized c s) {key : Bytes}
    {stamp : Stamp} {ru : ReplicaUnit} (position : ru ∈ c.positions (c.parentOf key))
    (holds : (s.db ru).HoldsAtLeast key stamp) : Delivered c s ru key stamp := by
  obtain ⟨n, known, hosted⟩ := hosts_positions c position
  have gone := inv.advanced n (finalized n known) _ (unitForHash_lt (c.hash key) c.count) ru
    position hosted
  obtain ⟨-, -, copied⟩ := inv.retired n ru gone
  have own : unitForHash (c.hash key) c.count = ru.unit.id := by
    obtain ⟨p, -, rfl⟩ := mem_map.mp position
    rfl
  obtain ⟨env, stored, newer⟩ := holds
  have arrived : Delivered c s ru key env.stamp := by
    simpa using copied key env own stored
  unfold Delivered at arrived ⊢
  split
  case isTrue split =>
    simp only [split, ↓reduceIte] at arrived
    exact arrived.mono newer
  case isFalse merge =>
    simp only [merge, Bool.false_eq_true, ↓reduceIte] at arrived
    refine arrived.trans (List.Sublist.length_le (monotone_filter_right _ ?_))
    intro other held
    simp only [decide_eq_true_eq] at held ⊢
    exact held.mono newer

theorem Inv.copies_otherOf (inv : Inv c s) (finalized : Finalized c s) {key : Bytes}
    {stamp : Stamp} (met : c.bar ≤ copies c s (c.parentOf key) key stamp) :
    c.bar ≤ copies c s (c.otherOf key) key stamp := by
  have delivered : ∀ ru ∈ c.positions (c.parentOf key), (s.db ru).HoldsAtLeast key stamp →
      Delivered c s ru key stamp :=
    fun ru position holds => inv.delivered_of_finalized finalized position holds
  cases direction : c.isSplit with
  | true =>
    refine met.trans ?_
    simp only [Delivered, direction, ↓reduceIte] at delivered
    simp only [copies, Cluster.positions, ← countP_eq_length_filter,
      countP_map] at delivered ⊢
    apply countP_mono_left
    intro p inRange holds
    simp only [comp_apply, decide_eq_true_eq] at holds ⊢
    exact delivered _ (mem_map.mpr ⟨p, inRange, rfl⟩) holds
  | false =>
    have replicated := c.replicated
    have positive : 0 < c.bar := requiredWriteAcks_pos (by omega)
    have some_copy : 0 < copies c s (c.parentOf key) key stamp := by omega
    obtain ⟨ru, mem⟩ := exists_mem_of_length_pos some_copy
    simp only [mem_filter, decide_eq_true_eq] at mem
    simpa [Delivered, direction] using delivered ru mem.1 mem.2

/-- **A reshard keeps the copies of acked writes.** In every state that a run of `careful`
steps reaches, once every node has advanced, an acked write is held at its stamp or a
higher one by as many positions of the key's new unit as its ack bar asked for. -/
theorem acked_copies_of_finalized {start : State} (initial : Initial c start)
    (reached : (machine c).Reaches (fun s action => careful c s action = true) start s)
    (finalized : Finalized c s) {key : Bytes} {stamp : Stamp}
    (acked : (key, stamp) ∈ s.acked) {n : Nat} (known : n ∈ c.nodes) :
    c.bar ≤ copies c s ((s.view n).resolveGenUnit (c.hash key)) key stamp := by
  have inv : Inv c s := reached.invariant initial.inv step_inv
  have home : (s.view n).resolveGenUnit (c.hash key) = c.otherOf key := by
    have ahead := finalized n known
    rcases inv.views n with steady | mid | advanced
    · rw [steady] at ahead
      exact absurd ahead (by simp [GenState.steady])
    · exact absurd (mid.1.symm.trans ahead) (by omega)
    · rw [advanced, GenState.resolveGenUnit_steady, Cluster.otherOf]
  rw [home]
  rcases inv.acked _ acked with old | new
  · exact inv.copies_otherOf finalized old
  · exact new

def pair : Cluster where
  hash := fun _ => 0
  wc := .quorum
  nodes := [0, 1]
  r := 2
  members := fun _ => [0, 1]
  gen := 0
  count := .one
  next := .two
  oneStep := .inl rfl
  replicated := by decide
  positions_le := by decide
  placed := fun _ => rfl
  known := fun _ _ member => member

def freshPair : State where
  view := fun _ => .steady 0 pair.count
  db := fun _ => ∅
  mounts := fun n =>
    if n = 0 then AList.singleton ⟨⟨0, 0⟩, 0⟩ 0
    else if n = 1 then AList.singleton ⟨⟨0, 0⟩, 1⟩ 1 else ∅
  handles := 2
  acquiring := fun _ => []
  driver := fun _ => .idle
  attempts := []
  caughtUp := []
  cutOver := []
  retired := fun _ _ => false
  acked := []

theorem freshPair_initial : Initial pair freshPair where
  steady := fun _ => rfl
  idle := fun _ => rfl
  noAttempts := rfl
  noMarkers := ⟨rfl, rfl⟩
  notRetired := fun _ _ => rfl
  mounted := by
    intro n ru present
    simp only [freshPair] at present
    split at present
    case isTrue first =>
      rw [AList.mem_keys, AList.keys_singleton, mem_singleton] at present
      subst first present
      decide
    case isFalse =>
      split at present
      case isTrue second =>
        rw [AList.mem_keys, AList.keys_singleton, mem_singleton] at present
        subst second present
        decide
      case isFalse => exact absurd present (AList.notMem_empty _)
  noAcquire := fun _ => rfl
  acked := by simp [freshPair]

def mountChildren (n : Nat) : List Action :=
  [.startAcquire n ⟨⟨1, 0⟩, UInt8.ofNat n⟩, .finishAcquire n ⟨⟨1, 0⟩, UInt8.ofNat n⟩,
    .startAcquire n ⟨⟨1, 1⟩, UInt8.ofNat n⟩, .finishAcquire n ⟨⟨1, 1⟩, UInt8.ofNat n⟩]

def driveSteps (n steps : Nat) : List Action :=
  List.replicate steps (.drive n ⟨⟨0, 0⟩, UInt8.ofNat n⟩ .ok)

/-- Both nodes enter the reshard and catch their slots up, then a write is acked over the
old unit. -/
def enterAndWrite : List Action :=
  [.enter 0, .enter 1] ++ mountChildren 0 ++ mountChildren 1 ++
    .beginDrive 0 :: driveSteps 0 6 ++ .beginDrive 1 :: driveSteps 1 6 ++
    .write 0 [7] ⟨⟨1, 0⟩, [1]⟩ :: List.replicate 5 (.leg 0 0 .ok) ++
    List.replicate 5 (.leg 0 1 .ok) ++ [.ack 0]

theorem acked_copies_after_careful_split :
    ∃ s, (machine pair).Reaches (fun s action => careful pair s action = true) freshPair s ∧
      Finalized pair s ∧ ([7], ⟨1, 0⟩) ∈ s.acked ∧
      2 ≤ copies pair s ((s.view 0).resolveGenUnit (pair.hash [7])) [7] ⟨1, 0⟩ := by
  obtain ⟨s, reached, finalized, acked⟩ :=
    (machine pair).exists_reaches_of_run (fun s action => careful pair s action = true)
      (List.flatten [enterAndWrite, .observe 0 0 :: .beginFinalize 0 :: driveSteps 0 8,
        .observe 1 0 :: .beginFinalize 1 :: driveSteps 1 8])
      freshPair (fun s => Finalized pair s ∧ ([7], ⟨1, 0⟩) ∈ s.acked) (by decide)
  exact ⟨s, reached, finalized, acked,
    acked_copies_of_finalized freshPair_initial reached finalized acked (by decide)⟩

/-- Without the condition a copy is lost: a later write fails at the old slot of node 1 and
evicts its mount, so that the node finalizes without copying what the slot holds. -/
theorem split_loses_acked_copy :
    ∃ s, (machine pair).Reaches anyAction freshPair s ∧ Finalized pair s ∧
      ([7], ⟨1, 0⟩) ∈ s.acked ∧
      copies pair s ((s.view 0).resolveGenUnit (pair.hash [7])) [7] ⟨1, 0⟩ < pair.bar :=
  (machine pair).exists_reaches_of_run anyAction
    (List.flatten [enterAndWrite,
      .write 0 [7] ⟨⟨2, 0⟩, [2]⟩ :: List.replicate 4 (.leg 1 1 (.failed true)),
      List.replicate 2 (.leg 1 1 .ok), [.observe 1 0, .beginFinalize 1, .drive 1 ⟨⟨0, 0⟩, 1⟩ .ok],
      .observe 0 0 :: .beginFinalize 0 :: driveSteps 0 8])
    freshPair _ (by decide)

end Shale.Replicated
