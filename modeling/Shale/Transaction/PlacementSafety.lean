import Shale.Transaction.Placement

/-!
# Which transactions land in their keys' units

The apply of a write-set resolves one key and stores all of them. The guard has seen every key in
one unit, that of the pin, under the routing state in which it was buffered. Where the nodes give a
generation one count, the unit of the pin has the same keys on all of them, so the keys land in
their own unit as long as that unit still serves on the node that stores them: it has not cut over,
or all that splits or merges into it has. A key of the anchor's own shard key needs no guard.

The other part, which holds over every run, is that the unit an apply has resolved stays the unit
of its anchor until it is done, as long as no routing-state commit moves it in between: a cut-over
under the write pause cannot, if the apply reads the pause of that unit.
-/

namespace Shale.Transact

open Machine

variable {c : Config} {counts : Nat → UnitCount} {s s' : State}

/-- Whether the keys of a unit resolve to it. A unit of the next generation has to wait for all
units that share keys with it. -/
def serves (gs : GenState) (unit : GenUnit) : Bool :=
  if unit.gen = gs.gen then decide (unit.id ∉ gs.cutOver)
  else
    unit.gen == gs.gen + 1 && gs.nextCount.any fun next =>
      decide (∀ k < gs.count.n,
        k % min gs.count.n next.n = unit.id % min gs.count.n next.n → k ∈ gs.cutOver)

def Belongs (c : Config) (counts : Nat → UnitCount) (unit : GenUnit) (key : Bytes) : Prop :=
  unitForHash (c.hash key) (counts unit.gen) = unit.id

/-- A routing state in which each generation has its count. -/
structure Laid (counts : Nat → UnitCount) (gs : GenState) : Prop where
  count : gs.count = counts gs.gen
  next : ∀ next, gs.nextCount = some next → next = counts (gs.gen + 1) ∧
    (next.n = 2 * gs.count.n ∨ gs.count.n = 2 * next.n)
  fresh : gs.nextCount = none → gs.cutOver = ∅
  units : ∀ k ∈ gs.cutOver, k < gs.count.n

namespace Laid

variable {gs : GenState} (laid : Laid counts gs)
include laid

theorem belongs (key : Bytes) : Belongs c counts (gs.resolveGenUnit (c.hash key)) key := by
  by_cases moved : unitForHash (c.hash key) gs.count ∈ gs.cutOver
  · cases entered : gs.nextCount with
    | none =>
      rw [laid.fresh entered] at moved
      cases moved
    | some next =>
      rw [GenState.resolveGenUnit_next moved entered, Belongs, ← (laid.next next entered).1]
  · rw [GenState.resolveGenUnit_old moved, Belongs, ← laid.count]

theorem resolves {unit : GenUnit} (live : serves gs unit = true) {key : Bytes}
    (belongs : Belongs c counts unit key) : gs.resolveGenUnit (c.hash key) = unit := by
  obtain ⟨gen, id⟩ := unit
  unfold serves at live
  unfold Belongs at belongs
  split at live
  case isTrue same =>
    subst same
    rw [← laid.count] at belongs
    subst belongs
    exact GenState.resolveGenUnit_old (of_decide_eq_true live)
  case isFalse =>
    simp only [Bool.and_eq_true, beq_iff_eq, Option.any_eq_true, decide_eq_true_eq] at live
    obtain ⟨rfl, next, entered, gone⟩ := live
    obtain ⟨counted, ratio⟩ := laid.next next entered
    rw [← counted] at belongs
    subst belongs
    refine GenState.resolveGenUnit_next (gone _ (unitForHash_lt _ _) ?_) entered
    have shared : min gs.count.n next.n ∣ gs.count.n ∧ min gs.count.n next.n ∣ next.n := by
      rcases ratio with twice | twice
      · rw [twice, min_eq_left (by omega)]
        exact ⟨dvd_rfl, dvd_mul_left _ _⟩
      · rw [twice, min_eq_right (by omega)]
        exact ⟨dvd_mul_left _ _, dvd_rfl⟩
    rw [unitForHash_eq_mod, unitForHash_eq_mod, Nat.mod_mod_of_dvd _ shared.1,
      Nat.mod_mod_of_dvd _ shared.2]

end Laid

/-- What the guard has seen of a transaction: all its keys in the unit of the pin. -/
structure Guarded (c : Config) (counts : Nat → UnitCount) (tx : ClusterTx) : Prop where
  pinned : ∀ pin, tx.pin = some pin → Belongs c counts pin.unit pin.key
  written : ∀ op ∈ tx.writeBuf, ∃ pin, tx.pin = some pin ∧ Belongs c counts pin.unit op.key

namespace Guarded

variable {tx after : ClusterTx} {gs : GenState} {key : Bytes} (guarded : Guarded c counts tx)
  (laid : Laid counts gs)
include guarded laid

theorem pin (key : Bytes) : Guarded c counts (tx.pinLocked c.sharding gs key) := by
  unfold ClusterTx.pinLocked
  split
  · exact guarded
  case h_2 unpinned =>
    refine ⟨?_, fun op mem => ?_⟩
    · rintro _ ⟨⟩
      exact laid.belongs key
    · obtain ⟨pin, pinned, -⟩ := guarded.written op mem
      rw [unpinned] at pinned
      cases pinned

theorem guardShard (admitted : tx.guardShard c.sharding gs key = .ok after) :
    Guarded c counts after ∧ ∃ pin, after.pin = some pin ∧ Belongs c counts pin.unit key := by
  obtain ⟨pin, rfl, unit, earlier⟩ := ClusterTx.of_guardShard admitted
  have belongs : Belongs c counts pin.unit key := unit ▸ laid.belongs key
  refine ⟨⟨?_, fun op mem => ?_⟩, pin, rfl, belongs⟩
  · rintro _ ⟨⟩
    rcases earlier with pinned | ⟨-, rfl⟩
    · exact guarded.pinned pin pinned
    · exact belongs
  · obtain ⟨own, pinned, inside⟩ := guarded.written op mem
    rcases earlier with same | ⟨unpinned, -⟩
    · cases same.symm.trans pinned
      exact ⟨_, rfl, inside⟩
    · rw [unpinned] at pinned
      cases pinned

theorem get {routed answer : Option Bytes}
    (answered : tx.get c.sharding gs key routed = .ok (after, answer)) :
    Guarded c counts after := by
  unfold ClusterTx.get at answered
  split at answered
  · cases answered
  case h_2 admitted =>
    have kept := (guarded.guardShard laid admitted).1
    split at answered
    · cases answered
      exact kept
    · cases answered
      unfold ClusterTx.recordRead
      split
      · exact kept
      · exact ⟨kept.pinned, kept.written⟩

theorem write {value : Option Bytes} (written : tx.write c.sharding gs key value = .ok after) :
    Guarded c counts after := by
  unfold ClusterTx.write at written
  split at written
  · cases written
  case h_2 admitted =>
    obtain ⟨kept, own⟩ := guarded.guardShard laid admitted
    cases written
    unfold ClusterTx.bufferWrite
    split
    · refine ⟨kept.pinned, fun op mem => ?_⟩
      obtain ⟨earlier, before, rfl⟩ := List.mem_map.mp mem
      split
      · exact own
      · exact kept.written earlier before
    · refine ⟨kept.pinned, fun op mem => ?_⟩
      rcases mem_snoc.mp mem with before | rfl
      · exact kept.written op before
      · exact own

end Guarded

def Apply.oldUnit (c : Config) (s : State) (apply : Apply) : Nat :=
  unitForHash (c.hash apply.anchor) (s.routing apply.node).count

/-- The steps that keep every key in its unit. A node enters a reshard with the count that the
next generation has on all of them. A unit is cut over only if every apply anchored in it that has
decided on a unit reads the pause of that unit, and without the pause only if there is none; a
generation advanced without an arbiter leaves no such apply behind in a unit that has not cut over.
And an apply stores only if the unit that the guard has seen its keys in still serves on the node,
or all keys have the shard key of its anchor. -/
def careful (c : Config) (counts : Nat → UnitCount) (s : State) : Action → Bool
  | .enter n next => decide (next = counts ((s.routing n).gen + 1))
  | .cutOver n k =>
    decide (∀ apply ∈ s.applies, apply.node = n → apply.phase.unit.isSome = true →
      apply.oldUnit c s = k → apply.phase.readLock = some k)
  | .observe n k =>
    decide (∀ apply ∈ s.applies, apply.node = n → apply.phase.unit.isSome = true →
      apply.oldUnit c s ≠ k)
  | .advance n =>
    c.arbiter || decide (∀ apply ∈ s.applies, apply.node = n →
      apply.phase.unit.isSome = true → apply.oldUnit c s ∈ (s.routing n).cutOver)
  | .stepApply i true =>
    match s.applies[i]? with
    | some apply =>
      match apply.phase with
      | .bound _ _ =>
        apply.pinned.any (serves (s.routing apply.node)) || apply.writes.all fun op =>
          c.sharding.shardKey op.key == c.sharding.shardKey apply.anchor
      | _ => true
    | none => true
  | _ => true

/-- An apply and what the others may not do to it: it stays in the unit that its anchor resolves
to, and nobody holds the pause that it reads. -/
structure Sound (c : Config) (counts : Nat → UnitCount) (routing : Nat → GenState)
    (paused : Nat → Nat → Bool) (apply : Apply) : Prop where
  guarded : ∀ unit, apply.pinned = some unit → Belongs c counts unit apply.anchor ∧
    ∀ op ∈ apply.writes, Belongs c counts unit op.key
  current : ∀ unit, apply.phase.unit = some unit →
    unit = (routing apply.node).resolveGenUnit (c.hash apply.anchor)
  excluded : ∀ k, apply.phase.readLock = some k → paused apply.node k = false

structure Inv (c : Config) (counts : Nat → UnitCount) (s : State) : Prop where
  laid : ∀ n, Laid counts (s.routing n)
  guarded : ∀ entry ∈ s.txs, Guarded c counts entry.2
  sound : ∀ apply ∈ s.applies, Sound c counts s.routing s.paused apply
  landed : ∀ entry ∈ s.stored, ∀ op ∈ entry.writes,
    entry.unit = entry.routing.resolveGenUnit (c.hash op.key)

namespace Inv

section

variable (inv : Inv c counts s)
include inv

theorem setTx {i node : Nat} {tx : ClusterTx} (guarded : Guarded c counts tx) :
    Inv c counts (s.setTx i node tx) := by
  refine { inv with guarded := fun entry mem => ?_ }
  rcases List.mem_or_eq_of_mem_set mem with old | rfl
  · exact inv.guarded entry old
  · exact guarded

theorem addApply {apply : Apply} (sound : Sound c counts s.routing s.paused apply) :
    Inv c counts (s.addApply apply) := by
  refine { inv with sound := fun other mem => ?_ }
  rcases mem_snoc.mp mem with old | rfl
  · exact inv.sound other old
  · exact sound

theorem setPhase {i : Nat} {apply : Apply} {phase : ApplyPhase} (mem : apply ∈ s.applies)
    (current : ∀ unit, phase.unit = some unit →
      unit = (s.routing apply.node).resolveGenUnit (c.hash apply.anchor))
    (excluded : ∀ k, phase.readLock = some k → s.paused apply.node k = false) :
    Inv c counts (s.setPhase i apply phase) := by
  refine { inv with sound := fun other member => ?_ }
  rcases List.mem_or_eq_of_mem_set member with old | rfl
  · exact inv.sound other old
  · exact ⟨(inv.sound apply mem).guarded, current, excluded⟩

theorem setRouting {n : Nat} {gs : GenState} (laid : Laid counts gs)
    (unmoved : ∀ apply ∈ s.applies, apply.node = n → apply.phase.unit.isSome = true →
      gs.resolveGenUnit (c.hash apply.anchor) = (s.routing n).resolveGenUnit (c.hash apply.anchor))
    : Inv c counts (s.setRouting n gs) where
  laid := (Function.forall_update_iff s.routing fun _ gs => Laid counts gs).mpr
    ⟨laid, fun m _ => inv.laid m⟩
  guarded := inv.guarded
  sound := by
    intro apply mem
    obtain ⟨guarded, current, excluded⟩ := inv.sound apply mem
    refine ⟨guarded, fun unit decided => ?_, excluded⟩
    have before := current unit decided
    by_cases same : apply.node = n
    · have kept := unmoved apply mem same (by simp [decided])
      simp only [State.setRouting, same, Function.update_self, kept]
      rw [← same]
      exact before
    · simpa [State.setRouting, same] using before
  landed := inv.landed

theorem setPaused {n k : Nat} {held : Bool} (free : held = true → s.hasReader n k = false) :
    Inv c counts (s.setPaused n k held) := by
  refine { inv with sound := fun apply mem => ?_ }
  obtain ⟨guarded, current, excluded⟩ := inv.sound apply mem
  refine ⟨guarded, current, fun pause reads => ?_⟩
  have before := excluded pause reads
  by_cases there : apply.node = n ∧ pause = k
  · obtain ⟨rfl, rfl⟩ := there
    cases held with
    | false => simp [State.setPaused]
    | true =>
      have := List.any_eq_false.mp (free rfl) apply mem
      simp [reads] at this
  · by_cases node : apply.node = n
    · subst node
      simpa [State.setPaused, show pause ≠ k from fun same => there ⟨rfl, same⟩] using before
    · simpa [State.setPaused, node] using before

end

end Inv

theorem Guarded.ships {tx : ClusterTx} (guarded : Guarded c counts tx) {anchor : Bytes}
    {reads : List ReadCheck} {writes : List WriteOp}
    (shipped : tx.ships = some (anchor, reads, writes)) {node : Nat} :
    Sound c counts s.routing s.paused
      ⟨node, anchor, tx.pin.map Pin.unit, writes, true, .started⟩ := by
  refine ⟨fun unit same => ?_, nofun, nofun⟩
  unfold ClusterTx.ships at shipped
  split at shipped
  · cases shipped
  case h_2 pin pinned =>
    split at shipped
    · cases shipped
    · cases shipped
      obtain rfl : pin.unit = unit := by simpa [pinned] using same
      refine ⟨guarded.pinned pin pinned, fun op mem => ?_⟩
      obtain ⟨own, found, belongs⟩ := guarded.written op mem
      cases pinned.symm.trans found
      exact belongs

theorem applyStep_inv {i : Nat} {succeeds : Bool} (inv : Inv c counts s)
    (safe : careful c counts s (.stepApply i succeeds) = true)
    (stepped : applyStep c i succeeds s = some s') : Inv c counts s' := by
  unfold applyStep at stepped
  cases present : s.applies[i]? with
  | none => simp [present] at stepped
  | some apply =>
    have member := List.mem_of_getElem? present
    simp only [present] at stepped
    cases phase : apply.phase with
    | started =>
      simp only [phase] at stepped
      cases stepped
      exact inv.setPhase member nofun nofun
    | counted pause =>
      simp only [phase] at stepped
      split at stepped
      · cases stepped
      case isFalse free =>
        cases stepped
        refine inv.setPhase member nofun ?_
        intro k held
        cases held
        simpa using free
    | locked pause =>
      simp only [phase] at stepped
      split at stepped
      · cases stepped
        refine inv.setPhase member ?_ ?_
        · intro unit decided
          exact (Option.some.inj decided).symm
        · intro k held
          exact (inv.sound apply member).excluded k (by rw [phase]; exact held)
      · cases stepped
        exact inv.setPhase member nofun nofun
    | addressed unit =>
      have current := (inv.sound apply member).current unit (by rw [phase]; rfl)
      simp only [phase] at stepped
      split at stepped <;>
      · cases stepped
        refine inv.setPhase member ?_ nofun
        rintro other decided
        cases decided
        exact current
    | waiting unit pause =>
      have current := (inv.sound apply member).current unit (by rw [phase]; rfl)
      simp only [phase] at stepped
      split at stepped
      · cases stepped
      case isFalse free =>
        cases stepped
        refine inv.setPhase member ?_ ?_
        · rintro other decided
          cases decided
          exact current
        · intro k held
          cases held
          simpa using free
    | bound unit pause =>
      have current := (inv.sound apply member).current unit (by rw [phase]; rfl)
      simp only [phase] at stepped
      split at stepped
      case isTrue success =>
        cases stepped
        subst success
        simp only [careful, present, phase, Bool.or_eq_true, Option.any_eq_true, List.all_eq_true,
          beq_iff_eq] at safe
        have done : Inv c counts (s.setPhase i apply (.finished true)) :=
          inv.setPhase member nofun nofun
        refine { done with landed := fun entry logged op written => ?_ }
        rcases mem_snoc.mp logged with old | rfl
        · exact inv.landed entry old op written
        · rw [current]
          rcases safe with ⟨pinned, pin, live⟩ | shared
          · obtain ⟨anchor, keys⟩ := (inv.sound apply member).guarded pinned pin
            have laid := inv.laid apply.node
            exact (laid.resolves live anchor).trans (laid.resolves live (keys op written)).symm
          · rw [Config.hash, Config.hash, Sharding.hash, Sharding.hash, shared op written]
      · cases stepped
        exact inv.setPhase member nofun nofun
    | finished ok => simp [phase] at stepped

theorem txStep_inv {i : Nat} {op : GenState → ClusterTx → Except GuardError ClusterTx}
    (inv : Inv c counts s) (stepped : txStep s i op = some s')
    (kept : ∀ gs tx after, Laid counts gs → Guarded c counts tx → op gs tx = .ok after →
      Guarded c counts after) : Inv c counts s' := by
  unfold txStep at stepped
  split at stepped
  · cases stepped
  case h_2 node tx present =>
    split at stepped
    · cases stepped
    case h_2 after done =>
      cases stepped
      exact inv.setTx (kept _ tx after (inv.laid node)
        (inv.guarded _ (List.mem_of_getElem? present)) done)

theorem Inv.cutOver (inv : Inv c counts s) {n k : Nat}
    (entered : (s.routing n).nextCount.isSome = true)
    (inRange : k < (s.routing n).count.n)
    (alone : ∀ apply ∈ s.applies, apply.node = n → apply.phase.unit.isSome = true →
      apply.oldUnit c s ≠ k) : Inv c counts (s.setRouting n ((s.routing n).cutOverUnit k)) := by
  have laid := inv.laid n
  refine inv.setRouting ⟨laid.count, laid.next, fun steady => ?_, fun other mem => ?_⟩ ?_
  · change (s.routing n).nextCount = none at steady
    rw [steady] at entered
    cases entered
  · rcases Finset.mem_insert.mp mem with rfl | old
    · exact inRange
    · exact laid.units other old
  · intro apply mem node decided
    have other := alone apply mem node decided
    subst node
    exact GenState.resolveGenUnit_cutOverUnit_of_ne other

theorem Inv.advance (inv : Inv c counts s) {n : Nat} {next : UnitCount}
    (entered : (s.routing n).nextCount = some next)
    (covered : ∀ apply ∈ s.applies, apply.node = n → apply.phase.unit.isSome = true →
      apply.oldUnit c s ∈ (s.routing n).cutOver) :
    Inv c counts (s.setRouting n ((s.routing n).advance next)) := by
  refine inv.setRouting ⟨((inv.laid n).next next entered).1, nofun, fun _ => rfl, nofun⟩ ?_
  · intro apply mem node decided
    have moved := covered apply mem node decided
    subst node
    exact GenState.resolveGenUnit_advance moved entered

theorem step_inv {action : Action} (inv : Inv c counts s)
    (safe : careful c counts s action = true)
    (stepped : (machine c).step action s = some s') : Inv c counts s' := by
  simp only [machine] at stepped
  cases action with
  | begin node =>
    cases stepped
    refine { inv with guarded := fun entry mem => ?_ }
    rcases mem_snoc.mp mem with old | rfl
    · exact inv.guarded entry old
    · exact ⟨nofun, nofun⟩
  | pin i key =>
    simp only [step] at stepped
    refine txStep_inv inv stepped ?_
    rintro gs tx _ laid guarded ⟨⟩
    exact guarded.pin laid key
  | get i key routed =>
    simp only [step] at stepped
    refine txStep_inv inv stepped fun gs tx after laid guarded done => ?_
    cases answered : tx.get c.sharding gs key routed with
    | error => simp [answered, Except.map] at done
    | ok result =>
      obtain rfl : result.1 = after := by simpa [answered, Except.map] using done
      exact guarded.get laid answered
  | write i key value =>
    simp only [step] at stepped
    exact txStep_inv inv stepped fun _ _ _ laid guarded => guarded.write laid
  | rollback i =>
    simp only [step] at stepped
    refine txStep_inv inv stepped ?_
    rintro _ tx _ - guarded ⟨⟩
    exact ⟨guarded.pinned, guarded.written⟩
  | commit i owner =>
    simp only [step] at stepped
    split at stepped
    · cases stepped
    case h_2 node tx present =>
      have guarded := inv.guarded _ (List.mem_of_getElem? present)
      have closed : Inv c counts (s.setTx i node { tx with done := true }) :=
        inv.setTx ⟨guarded.pinned, guarded.written⟩
      split at stepped
      · cases stepped
      · split at stepped
        · cases stepped
          exact closed
        case h_2 shipped =>
          cases stepped
          exact closed.addApply (guarded.ships shipped)
  | ship i node =>
    simp only [step] at stepped
    split at stepped
    case h_1 owner _ pinned first rest present =>
      obtain ⟨-, rfl⟩ := of_guard stepped
      refine inv.addApply ⟨fun unit pin => ?_, nofun, nofun⟩
      have keys := ((inv.sound _ (List.mem_of_getElem? present)).guarded unit pin).2
      exact ⟨keys first List.mem_cons_self, keys⟩
    · cases stepped
  | shipExtra i =>
    simp only [step] at stepped
    split at stepped
    case h_1 owner anchor pinned first rest present =>
      obtain ⟨-, rfl⟩ := of_guard stepped
      exact inv.addApply ⟨(inv.sound _ (List.mem_of_getElem? present)).guarded,
        fun unit decided => (Option.some.inj decided).symm, nofun⟩
    · cases stepped
  | stepApply i succeeds => exact applyStep_inv inv safe stepped
  | enter n next =>
    simp only [step] at stepped
    split at stepped
    case isTrue enabled =>
      cases stepped
      have laid := inv.laid n
      refine inv.setRouting ⟨laid.count, ?_, nofun, laid.units⟩ fun _ _ _ _ =>
        GenState.resolveGenUnit_enter (laid.fresh enabled.1)
      rintro _ ⟨⟩
      exact ⟨of_decide_eq_true safe, enabled.2.imp_right fun merges => merges.2.2⟩
    · cases stepped
  | pause n k =>
    simp only [step] at stepped
    split at stepped
    · cases stepped
    case isFalse free =>
      cases stepped
      simp only [not_or, Bool.not_eq_true] at free
      exact inv.setPaused fun _ => free.2
  | resume n k =>
    obtain ⟨-, rfl⟩ := of_guard stepped
    exact inv.setPaused nofun
  | cutOver n k =>
    simp only [step] at stepped
    split at stepped
    case isTrue enabled =>
      cases stepped
      obtain ⟨-, paused, entered, inRange, -⟩ := enabled
      refine inv.cutOver entered inRange ?_
      intro apply mem node decided own
      -- the apply would read the pause whose write side the resharder holds
      have held := (decide_eq_true_iff.mp safe) apply mem node decided own
      have open_ := (inv.sound apply mem).excluded k held
      rw [node, paused] at open_
      cases open_
    · cases stepped
  | observe n k =>
    simp only [step] at stepped
    split at stepped
    case isTrue enabled =>
      cases stepped
      obtain ⟨-, entered, inRange, -⟩ := enabled
      exact inv.cutOver entered inRange (decide_eq_true_iff.mp safe)
    · cases stepped
  | advance n =>
    simp only [step] at stepped
    split at stepped
    · cases stepped
    case h_2 next entered =>
      split at stepped
      case isTrue enabled =>
        cases stepped
        refine inv.advance entered ?_
        intro apply mem node decided
        simp only [careful, Bool.or_eq_true, decide_eq_true_eq] at safe
        rcases safe with arbiter | covered
        · apply GenState.mem_cutOver_of_allCutOver (enabled arbiter) (inv.laid n).units
          subst node
          exact unitForHash_lt _ _
        · exact covered apply mem node decided
      · cases stepped

theorem initial_inv (gen : Nat) : Inv c counts (initial gen (counts gen)) where
  laid := fun _ => ⟨rfl, nofun, fun _ => rfl, nofun⟩
  guarded := nofun
  sound := nofun
  landed := nofun

/-- **Every key lands in its own unit.** In every run of `careful` steps, each key of a
write-set that a node has stored, as the owner or as a replica, is stored in the unit that
the key itself resolves to in the node's routing state at that time. -/
theorem keys_land_in_own_unit {gen : Nat}
    (reached : (machine c).Reaches (fun s action => careful c counts s action = true)
      (initial gen (counts gen)) s) {entry : Stored} (logged : entry ∈ s.stored) {op : WriteOp}
    (written : op ∈ entry.writes) : entry.unit = c.sharding.genUnitForKey entry.routing op.key :=
  (reached.invariant (initial_inv gen) step_inv).landed entry logged op written

def byteSharding : Sharding where
  shardKey := List.take 1
  hashShardKey
    | [] => 0
    | byte :: _ => byte.toUInt64

def doubling (gen : Nat) : UnitCount := if gen = 0 then .one else .two

/-- Two keys of different shard keys, buffered and stored after their unit has cut over. -/
theorem two_keys_land_after_cut_over :
    ∃ s, (machine ⟨byteSharding, false, false⟩).Reaches
        (fun s action => careful ⟨byteSharding, false, false⟩ doubling s action = true)
        (initial 0 .one) s ∧
      ∃ entry ∈ s.stored, entry.unit = ⟨1, 1⟩ ∧ entry.writes.map WriteOp.key = [[1], [3]] ∧
        ∀ op ∈ entry.writes, entry.unit = byteSharding.genUnitForKey entry.routing op.key := by
  obtain ⟨s, reached, entry, logged, unit, keys⟩ :=
    (machine ⟨byteSharding, false, false⟩).exists_reaches_of_run
      (fun s action => careful ⟨byteSharding, false, false⟩ doubling s action = true)
      (List.flatten [[.enter 0 .two, .pause 0 0, .cutOver 0 0, .resume 0 0, .begin 0,
          .write 0 [1] (some [5]), .write 0 [3] none, .commit 0 0],
        List.replicate 4 (.stepApply 0 true)])
      (initial 0 .one)
      (fun s => ∃ entry ∈ s.stored, entry.unit = ⟨1, 1⟩ ∧ entry.writes.map WriteOp.key = [[1], [3]])
      (by decide)
  exact ⟨s, reached, entry, logged, unit, keys,
    fun op written => @keys_land_in_own_unit _ doubling _ 0 reached _ logged _ written⟩

/-- Keys end up outside their unit in three ways: the commit resolves the pin key after a cut-over
that puts its keys in different children; a replica has cut over while the owner has not; and a
node observes the cut-over between the resolve of a commit and its apply. -/
theorem committed_keys_stray :
    (∃ s, (machine ⟨byteSharding, false, false⟩).Reaches anyAction (initial 0 .one) s ∧
      ∃ entry ∈ s.stored, ∃ op ∈ entry.writes,
        entry.unit ≠ byteSharding.genUnitForKey entry.routing op.key) ∧
    (∃ s, (machine ⟨byteSharding, true, true⟩).Reaches anyAction (initial 0 .one) s ∧
      ∃ entry ∈ s.stored, entry.node = 1 ∧ ∃ op ∈ entry.writes,
        entry.unit ≠ byteSharding.genUnitForKey entry.routing op.key) ∧
    (∃ s, (machine ⟨byteSharding, true, true⟩).Reaches anyAction (initial 0 .one) s ∧
      ∃ entry ∈ s.stored, entry.writes.length = 1 ∧ ∃ op ∈ entry.writes,
        entry.unit ≠ byteSharding.genUnitForKey entry.routing op.key) := by
  refine ⟨?_, ?_, ?_⟩
  · exact (machine ⟨byteSharding, false, false⟩).exists_reaches_of_run anyAction
      (List.flatten [[.begin 0, .write 0 [0] (some [5]), .write 0 [1] (some [6]), .enter 0 .two,
          .pause 0 0, .cutOver 0 0, .resume 0 0, .commit 0 0],
        List.replicate 4 (.stepApply 0 true)])
      (initial 0 .one) _ (by decide)
  · exact (machine ⟨byteSharding, true, true⟩).exists_reaches_of_run anyAction
      (List.flatten [[.begin 0, .write 0 [0] (some [5]), .write 0 [1] (some [6]), .commit 0 0],
        List.replicate 4 (.stepApply 0 true), [.enter 1 .two, .observe 1 0, .ship 0 1],
        List.replicate 4 (.stepApply 1 true)])
      (initial 0 .one) _ (by decide)
  · exact (machine ⟨byteSharding, true, true⟩).exists_reaches_of_run anyAction
      (List.flatten [[.begin 0, .write 0 [0] (some [5]), .commit 0 0],
        List.replicate 3 (.stepApply 0 true), [.enter 0 .two, .observe 0 0, .stepApply 0 true]])
      (initial 0 .one) _ (by decide)

end Shale.Transact
