import Shale.Reshard.SingleNode

/-!
# What a single-node reshard keeps

The invariant of `SingleNode.machine` behind "no acked write is lost": every key's unit
holds the effect of the last acked write, every call that has resolved a unit has
resolved the one its key lives in, and while a unit is paused no call on its keys is past
the pause lock. It survives every step except two, and `careful` names them: listing the
units to bisect while one of them is not mounted, and pausing a unit while a call on its
keys waits on the pause lock of another count.
-/

namespace Shale.SingleNode

open Machine

open Function (update update_of_ne update_self)

variable {hash : Bytes → ShardHash} {s s' : State}

/-- The steps that keep acked writes. When the resharder lists the mounted units, all
units of the generation are mounted; when it pauses a unit, every call on a key of that
unit whose write is not applied yet uses the pause lock of that unit. -/
def careful (hash : Bytes → ShardHash) (s : State) : Action → Bool
  | .stepReshard =>
    match s.reshard with
    | .entered _ =>
      decide (∀ k < s.gs.count.n,
        (s.mounts.lookup { gen := s.gs.gen, id := k }).isSome = true)
    | .copying _ k [] _ =>
      decide (∀ call ∈ s.calls, unitForHash (hash call.request.key) s.gs.count = k →
        call.phase.pendingPause = none ∨ call.phase.pendingPause = some k)
    | _ => true
  | _ => true

def Quiesced (hash : Bytes → ShardHash) (s : State) (k : Nat) : Prop :=
  ∀ call ∈ s.calls, unitForHash (hash call.request.key) s.gs.count = k →
    call.phase.pendingPause = none ∨ call.phase = .counted k

structure Marching (gs : GenState) (next : UnitCount) (todo : List Nat) : Prop where
  entered : gs.nextCount = some next
  twice : next.n = 2 * gs.count.n
  nodup : todo.Nodup
  waiting : ∀ k ∈ todo, k ∉ gs.cutOver
  covered : ∀ k < gs.count.n, k ∈ gs.cutOver ∨ k ∈ todo

structure Bisecting (gs : GenState) (next : UnitCount) (k : Nat) (todo : List Nat) : Prop where
  marching : Marching gs next (k :: todo)
  inRange : k < gs.count.n

def CopyAgrees (hash : Bytes → ShardHash) (s : State) (next : UnitCount) (k : Nat)
    (rest : List (Bytes × Bytes)) : Prop :=
  ∀ key, unitForHash (hash key) s.gs.count = k →
    (rest.lookup key).or
        ((s.db { gen := s.gs.gen + 1, id := unitForHash (hash key) next }).get key) =
      (s.db { gen := s.gs.gen, id := k }).get key

def IsEmpty (s : State) (unit : GenUnit) : Prop := ∀ key, (s.db unit).get key = none

def ReshardInv (hash : Bytes → ShardHash) (s : State) : Prop :=
  match s.reshard with
  | .idle | .reconciling => s.gs.cutOver = ∅
  | .entered next =>
    s.gs.cutOver = ∅ ∧ s.gs.nextCount = some next ∧ next.n = 2 * s.gs.count.n
  | .marching next todo | .flipped next _ todo | .unlocked next _ todo =>
    Marching s.gs next todo
  | .opened next k todo | .sourced next k todo | .copying next k _ todo =>
    Bisecting s.gs next k todo
  | .paused next k todo => Bisecting s.gs next k todo ∧ Quiesced hash s k
  | .clearedLow next k todo =>
    Bisecting s.gs next k todo ∧ Quiesced hash s k ∧
      IsEmpty s { gen := s.gs.gen + 1, id := k }
  | .cleared next k todo =>
    Bisecting s.gs next k todo ∧ Quiesced hash s k ∧
      IsEmpty s { gen := s.gs.gen + 1, id := k } ∧
      IsEmpty s { gen := s.gs.gen + 1, id := k + s.gs.count.n }
  | .recopying next k rest todo =>
    Bisecting s.gs next k todo ∧ Quiesced hash s k ∧ CopyAgrees hash s next k rest ∧
      (rest.map Prod.fst).Nodup

def HoldsAcked (hash : Bytes → ShardHash) (s : State) : Prop :=
  ∀ key, (s.db (s.gs.resolveGenUnit (hash key))).get key = s.acked key

def TargetsCurrent (hash : Bytes → ShardHash) (s : State) : Prop :=
  ∀ call ∈ s.calls, ∀ unit, call.phase.target = some unit →
    unit = s.gs.resolveGenUnit (hash call.request.key)

structure Inv (hash : Bytes → ShardHash) (s : State) : Prop where
  holdsAcked : HoldsAcked hash s
  targets : TargetsCurrent hash s
  reshard : ReshardInv hash s

section Placement

variable {gs : GenState} {h : ShardHash} {k id : Nat} {next : UnitCount}

section

variable (entered : gs.nextCount = some next) (twice : next.n = 2 * gs.count.n)
include entered twice

theorem resolveGenUnit_ne_of_other (other : unitForHash h gs.count ≠ k) :
    gs.resolveGenUnit h ≠ ⟨gs.gen, k⟩ ∧
      ∀ id, id % gs.count.n = k → gs.resolveGenUnit h ≠ ⟨gs.gen + 1, id⟩ := by
  by_cases moved : unitForHash h gs.count ∈ gs.cutOver
  · rw [GenState.resolveGenUnit_next moved entered]
    refine ⟨by simp, ?_⟩
    intro id child same
    apply other
    rw [← unitForHash_mod_of_double twice h, ← child, (GenUnit.mk.inj same).2]
  · rw [GenState.resolveGenUnit_old moved]
    refine ⟨by simpa using other, ?_⟩
    intro id _ same
    have := (GenUnit.mk.inj same).1
    omega

theorem resolveGenUnit_ne_child (stays : k ∉ gs.cutOver) (child : id % gs.count.n = k) :
    gs.resolveGenUnit h ≠ ⟨gs.gen + 1, id⟩ := by
  by_cases own : unitForHash h gs.count = k
  · rw [GenState.resolveGenUnit_old (own ▸ stays)]
    intro same
    have := (GenUnit.mk.inj same).1
    omega
  · exact (resolveGenUnit_ne_of_other entered twice own).2 id child

end

end Placement

variable {next : UnitCount} {todo : List Nat} {k : Nat} {gs : GenState}

theorem Bisecting.low_mod (bisecting : Bisecting gs next k todo) : k % gs.count.n = k :=
  Nat.mod_eq_of_lt bisecting.inRange

theorem Bisecting.high_mod (bisecting : Bisecting gs next k todo) :
    (k + gs.count.n) % gs.count.n = k := by
  rw [Nat.add_mod_right, bisecting.low_mod]

theorem Quiesced.other_of_target (quiet : Quiesced hash s k) {call : Call} (mem : call ∈ s.calls)
    {unit : GenUnit} (resolved : call.phase.target = some unit) :
    unitForHash (hash call.request.key) s.gs.count ≠ k := by
  intro own
  rcases quiet call mem own with none | waiting
  · cases phase : call.phase <;> simp_all [CallPhase.target, CallPhase.pendingPause]
  · simp [waiting, CallPhase.target] at resolved

theorem ReshardInv.frame (inv : ReshardInv hash s) (gs : s'.gs = s.gs)
    (reshard : s'.reshard = s.reshard)
    (quiet : ∀ k, s.reshard.writeLock = some k → Quiesced hash s k → Quiesced hash s' k)
    (db : ∀ {next k todo}, Bisecting s.gs next k todo → Quiesced hash s k →
      s'.db ⟨s.gs.gen, k⟩ = s.db ⟨s.gs.gen, k⟩ ∧
        ∀ id, id % s.gs.count.n = k →
          s'.db ⟨s.gs.gen + 1, id⟩ = s.db ⟨s.gs.gen + 1, id⟩) : ReshardInv hash s' := by
  unfold ReshardInv at inv ⊢
  rw [reshard, gs]
  cases position : s.reshard with
  | idle | entered | marching | opened | sourced | copying | flipped | unlocked
  | reconciling => simpa only [position] using inv
  | paused next k todo =>
    simp only [position] at inv
    exact ⟨inv.1, quiet k (by rw [position]; rfl) inv.2⟩
  | clearedLow next k todo =>
    simp only [position] at inv
    obtain ⟨bisecting, quiesced, low⟩ := inv
    refine ⟨bisecting, quiet k (by rw [position]; rfl) quiesced, fun key => ?_⟩
    rw [(db bisecting quiesced).2 k bisecting.low_mod]
    exact low key
  | cleared next k todo =>
    simp only [position] at inv
    obtain ⟨bisecting, quiesced, low, high⟩ := inv
    have same := (db bisecting quiesced).2
    refine ⟨bisecting, quiet k (by rw [position]; rfl) quiesced, fun key => ?_, fun key => ?_⟩
    · rw [same k bisecting.low_mod]
      exact low key
    · rw [same (k + s.gs.count.n) bisecting.high_mod]
      exact high key
  | recopying next k rest todo =>
    simp only [position] at inv
    obtain ⟨bisecting, quiesced, agrees, distinct⟩ := inv
    obtain ⟨parent, children⟩ := db bisecting quiesced
    refine ⟨bisecting, quiet k (by rw [position]; rfl) quiesced, ?_, distinct⟩
    intro key own
    rw [gs] at own ⊢
    rw [parent, children _ (by rw [unitForHash_mod_of_double bisecting.marching.twice, own])]
    exact agrees key own

structure CallMove (hash : Bytes → ShardHash) (s s' : State) (i : Nat) (call : Call)
    (phase : CallPhase) : Prop where
  present : s.calls[i]? = some call
  calls : s'.calls = s.calls.set i { call with phase }
  gs : s'.gs = s.gs
  reshard : s'.reshard = s.reshard
  target : ∀ unit, phase.target = some unit → call.phase.target = some unit ∨
    unit = s.gs.resolveGenUnit (hash call.request.key)
  pause : phase.pendingPause = none ∨
    phase = .counted (unitForHash (hash call.request.key) s.gs.count) ∨
    (∃ pause, call.phase = .counted pause ∧ s.reshard.writeLock ≠ some pause) ∨
    call.phase.pendingPause ≠ none ∧ ∀ pause, call.phase ≠ .counted pause
  contents : s'.db = s.db ∧ s'.acked = s.acked ∨
    ∃ unit, call.phase.target = some unit ∧
      s'.db = update s.db unit
        ((s.db unit).write call.request.key call.request.effect) ∧
      s'.acked = update s.acked call.request.key call.request.effect

theorem callStep_move {i : Nat} {succeeds : Bool} (stepped : callStep hash i succeeds s = some s') :
    ∃ call phase, CallMove hash s s' i call phase := by
  unfold callStep at stepped
  cases present : s.calls[i]? with
  | none => simp [present] at stepped
  | some call =>
    obtain ⟨request, phase⟩ := call
    simp only [present] at stepped
    cases phase with
    | begun =>
      cases stepped
      exact ⟨_, _, present, rfl, rfl, rfl, nofun, .inr (.inl rfl), .inl ⟨rfl, rfl⟩⟩
    | counted pause =>
      simp only at stepped
      split at stepped
      · cases stepped
      case isFalse free =>
        cases stepped
        exact ⟨_, _, present, rfl, rfl, rfl, nofun, .inr (.inr (.inl ⟨pause, rfl, free⟩)),
          .inl ⟨rfl, rfl⟩⟩
    | locked pause =>
      cases stepped
      exact ⟨_, _, present, rfl, rfl, rfl,
        fun unit resolved => .inr (Option.some.inj resolved).symm,
        .inr (.inr (.inr ⟨nofun, nofun⟩)), .inl ⟨rfl, rfl⟩⟩
    | resolved pause unit =>
      simp only at stepped
      split at stepped <;>
      · cases stepped
        exact ⟨_, _, present, rfl, rfl, rfl, fun _ resolved => .inl resolved,
          .inr (.inr (.inr ⟨nofun, nofun⟩)), .inl ⟨rfl, rfl⟩⟩
    | missed pause unit =>
      simp only at stepped
      split at stepped
      · cases stepped
        exact ⟨_, _, present, rfl, rfl, rfl, fun _ resolved => .inl resolved,
          .inr (.inr (.inr ⟨nofun, nofun⟩)), .inl ⟨rfl, rfl⟩⟩
      · cases stepped
        exact ⟨_, _, present, rfl, rfl, rfl, nofun, .inl rfl, .inl ⟨rfl, rfl⟩⟩
    | bound pause unit handle =>
      simp only at stepped
      split at stepped
      · cases stepped
        exact ⟨_, _, present, rfl, rfl, rfl, nofun, .inl rfl, .inr ⟨unit, rfl, rfl, rfl⟩⟩
      · cases stepped
        exact ⟨_, _, present, rfl, rfl, rfl, nofun, .inl rfl, .inl ⟨rfl, rfl⟩⟩
    | failed pause unit handle =>
      cases stepped
      unfold State.evictIfSame
      split <;> exact ⟨_, _, present, rfl, rfl, rfl, nofun, .inl rfl, .inl ⟨rfl, rfl⟩⟩
    | finishing pause acked =>
      cases stepped
      exact ⟨_, _, present, rfl, rfl, rfl, nofun, .inl rfl, .inl ⟨rfl, rfl⟩⟩
    | returned acked => cases stepped

namespace CallMove

variable {i : Nat} {call : Call} {phase : CallPhase}

section

variable (move : CallMove hash s s' i call phase)
include move

theorem mem : call ∈ s.calls :=
  List.mem_of_getElem? move.present

theorem mem_or_eq {c : Call} (mem : c ∈ s'.calls) : c ∈ s.calls ∨ c = { call with phase } := by
  rw [move.calls] at mem
  exact List.mem_or_eq_of_mem_set mem

theorem targetsCurrent (targets : TargetsCurrent hash s) : TargetsCurrent hash s' := by
  intro c member unit resolved
  rw [move.gs]
  rcases move.mem_or_eq member with old | rfl
  · exact targets c old unit resolved
  · rcases move.target unit resolved with before | now
    · exact targets call move.mem unit before
    · exact now

theorem holdsAcked (targets : TargetsCurrent hash s) (holds : HoldsAcked hash s) :
    HoldsAcked hash s' := by
  intro key
  rcases move.contents with ⟨db, acked⟩ | ⟨unit, resolved, db, acked⟩
  · rw [move.gs, db, acked]
    exact holds key
  · have current := targets call move.mem unit resolved
    rw [move.gs, db, acked]
    by_cases same : key = call.request.key
    · subst same
      rw [← current, update_self, update_self, Store.get_write_self]
    · rw [update_of_ne same]
      by_cases there : s.gs.resolveGenUnit (hash key) = unit
      · rw [there, update_self, Store.get_write_of_ne same, ← there]
        exact holds key
      · rw [update_of_ne there]
        exact holds key

theorem quiesced {k : Nat} (held : s.reshard.writeLock = some k) (quiet : Quiesced hash s k) :
    Quiesced hash s' k := by
  intro c member own
  rw [move.gs] at own
  rcases move.mem_or_eq member with old | rfl
  · exact quiet c old own
  · rcases move.pause with applied | counted | ⟨pause, counted, free⟩ | ⟨pending, past⟩
    · exact .inl applied
    · exact .inr (own ▸ counted)
    · rcases quiet call move.mem own with none | waiting
      · simp [counted, CallPhase.pendingPause] at none
      · obtain rfl : pause = k := CallPhase.counted.inj (counted.symm.trans waiting)
        exact absurd held free
    · rcases quiet call move.mem own with none | waiting
      · exact absurd none pending
      · exact absurd waiting (past k)

theorem db_eq (targets : TargetsCurrent hash s) {next : UnitCount} {k : Nat} {todo : List Nat}
    (bisecting : Bisecting s.gs next k todo) (quiet : Quiesced hash s k) :
    s'.db ⟨s.gs.gen, k⟩ = s.db ⟨s.gs.gen, k⟩ ∧
      ∀ id, id % s.gs.count.n = k → s'.db ⟨s.gs.gen + 1, id⟩ = s.db ⟨s.gs.gen + 1, id⟩ := by
  rcases move.contents with ⟨db, _⟩ | ⟨unit, resolved, db, _⟩
  · rw [db]
    exact ⟨rfl, fun _ _ => rfl⟩
  · have apart := resolveGenUnit_ne_of_other bisecting.marching.entered
      bisecting.marching.twice (quiet.other_of_target move.mem resolved)
    rw [← targets call move.mem unit resolved] at apart
    rw [db]
    exact ⟨update_of_ne apart.1.symm _ _, fun id child => update_of_ne (apart.2 id child).symm _ _⟩

theorem inv (inv : Inv hash s) : Inv hash s' :=
  ⟨move.holdsAcked inv.targets inv.holdsAcked, move.targetsCurrent inv.targets,
    inv.reshard.frame move.gs move.reshard (fun _ => move.quiesced) (move.db_eq inv.targets)⟩

end

end CallMove

theorem mem_mountedOldUnits {gen : Nat} :
    k ∈ s.mountedOldUnits gen ↔ (s.mounts.lookup { gen, id := k }).isSome = true := by
  rw [State.mountedOldUnits, List.mem_insertionSort, AList.lookup_isSome, AList.mem_keys]
  simp only [List.mem_map, List.mem_filter, beq_iff_eq]
  constructor
  · rintro ⟨unit, ⟨mounted, rfl⟩, rfl⟩
    exact mounted
  · intro mounted
    exact ⟨_, ⟨mounted, rfl⟩, rfl⟩

theorem nodup_mountedOldUnits (s : State) (gen : Nat) : (s.mountedOldUnits gen).Nodup := by
  refine (List.perm_insertionSort _ _).nodup_iff.mpr ?_
  refine List.Nodup.map_on ?_ (s.mounts.keys_nodup.filter _)
  rintro ⟨g, k⟩ left ⟨g', k'⟩ right (rfl : k = k')
  simp only [List.mem_filter, beq_iff_eq] at left right
  rw [left.2, right.2]

theorem HoldsAcked.update_child {id : Nat} (holds : HoldsAcked hash s)
    (bisecting : Bisecting s.gs next k todo) (child : id % s.gs.count.n = k) (store : Store Bytes)
    (position : ReshardPhase) :
    HoldsAcked hash { s with
      db := update s.db ⟨s.gs.gen + 1, id⟩ store
      reshard := position } := by
  intro key
  have apart := resolveGenUnit_ne_child (h := hash key) bisecting.marching.entered
    bisecting.marching.twice (bisecting.marching.waiting k (by simp)) child
  change (update s.db _ store (s.gs.resolveGenUnit (hash key))).get key = s.acked key
  rw [update_of_ne apart]
  exact holds key

theorem CopyAgrees.copyEntry {entry : Bytes × Bytes} {rest : List (Bytes × Bytes)}
    (bisecting : Bisecting s.gs next k todo) (distinct : ((entry :: rest).map Prod.fst).Nodup)
    (agrees : CopyAgrees hash s next k (entry :: rest)) (position : ReshardPhase) :
    CopyAgrees hash { (copyEntry hash next k entry s) with reshard := position } next k rest := by
  intro key own
  have parent : (⟨s.gs.gen, k⟩ : GenUnit) ≠
      ⟨s.gs.gen + 1, copyTarget hash s.gs.count next k entry.1⟩ := by simp
  simp only [SingleNode.copyEntry] at own ⊢
  rw [update_of_ne parent, ← agrees key own]
  refine Store.or_get_update_put s.db distinct ?_
  rintro rfl
  rw [copyTarget_eq bisecting.marching.twice own]

private theorem Inv.of_reshard (inv : Inv hash s) {t : State} (gs : t.gs = s.gs)
    (db : t.db = s.db) (calls : t.calls = s.calls) (acked : t.acked = s.acked)
    (reshard : ReshardInv hash t) : Inv hash t := by
  refine ⟨fun key => ?_, fun call mem unit resolved => ?_, reshard⟩
  · rw [gs, db, acked]
    exact inv.holdsAcked key
  · rw [gs]
    exact inv.targets call (calls ▸ mem) unit resolved

private theorem Inv.of_resolves (inv : Inv hash s) {position : ReshardPhase}
    (same : ∀ key, gs.resolveGenUnit (hash key) = s.gs.resolveGenUnit (hash key))
    (reshard : ReshardInv hash { s with gs, reshard := position }) :
    Inv hash { s with gs, reshard := position } := by
  refine ⟨fun key => ?_, fun call mem unit resolved => ?_, reshard⟩
  · rw [same]
    exact inv.holdsAcked key
  · rw [same]
    exact inv.targets call mem unit resolved

private theorem Inv.cutOverUnit (inv : Inv hash s) (bisecting : Bisecting s.gs next k todo)
    (quiet : Quiesced hash s k) (agrees : CopyAgrees hash s next k []) :
    Inv hash { s with gs := s.gs.cutOverUnit k, reshard := .flipped next k todo } := by
  obtain ⟨⟨entered, twice, nodup, waiting, covered⟩, inRange⟩ := bisecting
  refine ⟨fun key => ?_, fun call mem unit resolved => ?_, ?_⟩
  · by_cases own : unitForHash (hash key) s.gs.count = k
    · have moved : unitForHash (hash key) (s.gs.cutOverUnit k).count ∈
          (s.gs.cutOverUnit k).cutOver := by
        change unitForHash (hash key) s.gs.count ∈ insert k s.gs.cutOver
        simp [own]
      have old := GenState.resolveGenUnit_old (h := hash key)
        (own ▸ waiting k (by simp) : unitForHash (hash key) s.gs.count ∉ s.gs.cutOver)
      rw [GenState.resolveGenUnit_next moved entered]
      have copied := agrees key own
      simp only [List.lookup_nil, Option.none_or] at copied
      change (s.db ⟨s.gs.gen + 1, unitForHash (hash key) next⟩).get key = _
      rw [copied, ← inv.holdsAcked key, old, own]
    · rw [GenState.resolveGenUnit_cutOverUnit_of_ne own]
      exact inv.holdsAcked key
  · rw [GenState.resolveGenUnit_cutOverUnit_of_ne (quiet.other_of_target mem resolved)]
    exact inv.targets call mem unit resolved
  · refine ⟨entered, twice, (List.nodup_cons.mp nodup).2, ?_, ?_⟩
    · intro j mem
      change j ∉ insert k s.gs.cutOver
      have apart : j ≠ k := fun same => (List.nodup_cons.mp nodup).1 (same ▸ mem)
      simpa [apart] using waiting j (by simp [mem])
    · intro j below
      change j ∈ insert k s.gs.cutOver ∨ j ∈ todo
      rcases covered j below with flipped | listed
      · exact .inl (by simp [flipped])
      · rcases List.mem_cons.mp listed with rfl | later
        · exact .inl (by simp)
        · exact .inr later

private theorem Inv.advance (inv : Inv hash s) (marching : Marching s.gs next []) :
    Inv hash { s with gs := s.gs.advance next, reshard := .reconciling } := by
  refine inv.of_resolves (fun key => GenState.resolveGenUnit_advance ?_ marching.entered) rfl
  rcases marching.covered _ (unitForHash_lt (hash key) s.gs.count) with flipped | listed
  · exact flipped
  · cases listed

private theorem quiesced_of_noReader (noReader : s.hasReader k = false)
    (own : ∀ call ∈ s.calls, unitForHash (hash call.request.key) s.gs.count = k →
      call.phase.pendingPause = none ∨ call.phase.pendingPause = some k) : Quiesced hash s k := by
  intro call mem inside
  have free : call.phase.readLock ≠ some k := by
    simp only [State.hasReader, List.any_eq_false, beq_iff_eq] at noReader
    exact noReader call mem
  rcases own call mem inside with none | pending
  · exact .inl none
  · cases phase : call.phase <;>
      simp_all [CallPhase.pendingPause, CallPhase.readLock]

private theorem Inv.enter (inv : Inv hash s) (fresh : s.gs.cutOver = ∅)
    (doubled : s.gs.count.double = .ok next) :
    Inv hash { s with gs := s.gs.enter next, reshard := .entered next } :=
  inv.of_resolves (fun _ => GenState.resolveGenUnit_enter fresh)
    ⟨fresh, rfl, UnitCount.n_of_double doubled⟩

private theorem Inv.of_newCall (inv : Inv hash s) (request : Request) :
    Inv hash { s with calls := s.calls ++ [{ request, phase := .begun }] } := by
  refine ⟨inv.holdsAcked, fun call mem unit resolved => ?_, inv.reshard.frame rfl rfl
    (fun k _ quiet call mem own => ?_) fun _ _ => ⟨rfl, fun _ _ => rfl⟩⟩
  · rcases mem_snoc.mp mem with old | rfl
    · exact inv.targets call old unit resolved
    · cases resolved
  · rcases mem_snoc.mp mem with old | rfl
    · exact quiet call old own
    · exact .inl rfl

theorem reshardStep_inv (inv : Inv hash s) (safe : careful hash s .stepReshard = true)
    (stepped : reshardStep hash s = some s') : Inv hash s' := by
  have before := inv.reshard
  unfold ReshardInv at before
  unfold reshardStep at stepped
  unfold careful at safe
  cases position : s.reshard with
  | idle => simp [position] at stepped
  | entered next =>
    simp only [position, decide_eq_true_eq] at stepped before safe
    cases stepped
    obtain ⟨fresh, entered, twice⟩ := before
    refine inv.of_reshard rfl rfl rfl rfl ⟨entered, twice, nodup_mountedOldUnits s _, ?_, ?_⟩
    · intro k _
      simp [fresh]
    · intro k below
      exact .inr (mem_mountedOldUnits.mpr (safe k below))
  | marching next todo =>
    cases todo with
    | nil =>
      simp only [position] at stepped before
      cases stepped
      exact inv.advance before
    | cons k todo =>
      simp only [position] at stepped before
      unfold childUnits at stepped
      split at stepped
      · cases stepped
      case h_2 low high opened =>
        split at opened
        · cases opened
        case isFalse inside =>
          cases stepped
          have inRange : k < s.gs.count.n := by simpa [UnitCount.contains] using inside
          exact inv.of_reshard rfl rfl rfl rfl ⟨before, inRange⟩
  | opened next k todo =>
    simp only [position] at stepped before
    obtain ⟨-, rfl⟩ := of_guard stepped
    exact inv.of_reshard rfl rfl rfl rfl before
  | sourced next k todo | flipped next k todo | unlocked next k todo | reconciling =>
    simp only [position] at stepped before
    cases stepped
    exact inv.of_reshard rfl rfl rfl rfl before
  | copying next k rest todo =>
    cases rest with
    | nil =>
      simp only [position, decide_eq_true_eq] at stepped before safe
      split at stepped
      · cases stepped
      case isFalse noReader =>
        cases stepped
        have quiet := quiesced_of_noReader (by simpa using noReader) safe
        exact inv.of_reshard rfl rfl rfl rfl ⟨before, quiet⟩
    | cons entry rest =>
      simp only [position] at stepped before
      cases stepped
      exact ⟨inv.holdsAcked.update_child before (copyTarget_mod hash before.inRange _) _ _,
        inv.targets, before⟩
  | paused next k todo =>
    simp only [position] at stepped before
    cases stepped
    refine ⟨inv.holdsAcked.update_child before.1 before.1.low_mod _ _, inv.targets,
      before.1, before.2, fun key => ?_⟩
    simp [clearUnit]
  | clearedLow next k todo =>
    simp only [position] at stepped before
    cases stepped
    obtain ⟨bisecting, quiet, low⟩ := before
    refine ⟨inv.holdsAcked.update_child bisecting bisecting.high_mod _ _, inv.targets,
      bisecting, quiet, fun key => ?_, fun key => ?_⟩
    · have apart : (⟨s.gs.gen + 1, k⟩ : GenUnit) ≠
          ⟨s.gs.gen + 1, k + s.gs.count.n⟩ := by
        have := s.gs.count.pos
        intro same
        have := (GenUnit.mk.inj same).2
        omega
      simp only [clearUnit]
      rw [update_of_ne apart]
      exact low key
    · simp [clearUnit]
  | cleared next k todo =>
    simp only [position] at stepped before
    cases stepped
    obtain ⟨bisecting, quiet, low, high⟩ := before
    refine inv.of_reshard rfl rfl rfl rfl ⟨bisecting, quiet, fun key own => ?_, Store.nodup_scan _⟩
    have empty : (s.db ⟨s.gs.gen + 1, unitForHash (hash key) next⟩).get key =
        none := by
      rcases unitForHash_double_mem_childUnits bisecting.marching.twice (hash key) with
        lowChild | highChild
      · rw [lowChild, own]
        exact low key
      · rw [highChild, own]
        exact high key
    rw [empty, Store.lookup_scan, Option.or_none]
  | recopying next k rest todo =>
    simp only [position] at stepped before
    obtain ⟨bisecting, quiet, agrees, distinct⟩ := before
    cases rest with
    | nil =>
      cases stepped
      exact inv.cutOverUnit bisecting quiet agrees
    | cons entry rest =>
      cases stepped
      refine ⟨inv.holdsAcked.update_child bisecting (copyTarget_mod hash bisecting.inRange _)
        _ _, inv.targets, bisecting, quiet, agrees.copyEntry bisecting distinct _, ?_⟩
      exact (List.nodup_cons.mp distinct).2

theorem step_inv {action : Action} (inv : Inv hash s) (safe : careful hash s action = true)
    (stepped : step hash action s = some s') : Inv hash s' := by
  cases action with
  | call request =>
    simp only [step] at stepped
    split at stepped
    · cases stepped
    · cases stepped
      exact inv.of_newCall request
  | stepCall i succeeds =>
    obtain ⟨call, phase, move⟩ := callStep_move stepped
    exact move.inv inv
  | reshard =>
    simp only [step] at stepped
    split at stepped
    case isFalse => cases stepped
    case isTrue idle =>
      split at stepped
      · cases stepped
      case h_2 next doubled =>
        cases stepped
        have fresh : s.gs.cutOver = ∅ := by
          have := inv.reshard
          simpa only [ReshardInv, idle] using this
        exact inv.enter fresh doubled
  | stepReshard => exact reshardStep_inv inv safe stepped
  | acquire unit | release unit =>
    obtain ⟨-, rfl⟩ := of_guard stepped
    exact inv.of_reshard rfl rfl rfl rfl inv.reshard

theorem Initial.inv (initial : Initial hash s) : Inv hash s := by
  refine ⟨fun key => (initial.acked key).symm, ?_, ?_⟩
  · intro call mem
    rw [initial.noCalls] at mem
    cases mem
  · have fresh : s.gs.cutOver = ∅ := congrArg GenState.cutOver initial.steady
    simpa only [ReshardInv, initial.idle] using fresh

/-- **No acked write is lost.** In every state that a run of `careful` steps reaches, a
`Get` answers the effect of the last acked write on its key, or the acquiring error of a
unit that is not mounted. -/
theorem get_eq_last_acked {start : State} (initial : Initial hash start)
    (reached : (machine hash).Reaches (fun s action => careful hash s action = true) start s)
    (key : Bytes) : get hash s key = .value (s.acked key) ∨ get hash s key = .acquiring := by
  have inv : Inv hash s := reached.invariant initial.inv step_inv
  by_cases mounted : (s.mounts.lookup (s.gs.resolveGenUnit (hash key))).isSome = true
  · left
    simp only [get, mounted, ↓reduceIte]
    rw [inv.holdsAcked key]
  · right
    simp only [get, mounted, Bool.false_eq_true, ↓reduceIte]

def firstByte : Bytes → ShardHash
  | [] => 0
  | byte :: _ => byte.toUInt64

def freshNode : State where
  gs := .steady 0 .one
  db := fun _ => ∅
  mounts := AList.singleton ⟨0, 0⟩ 0
  handles := 1
  calls := []
  reshard := .idle
  acked := fun _ => none

theorem freshNode_initial : Initial firstByte freshNode :=
  ⟨rfl, rfl, rfl, fun _ => rfl⟩

theorem get_after_careful_reshard :
    ∃ s, (machine firstByte).Reaches (fun s action => careful firstByte s action = true)
        freshNode s ∧ Quiescent s ∧ s.gs.gen = 1 ∧
      get firstByte s [0] = .value (some [7]) ∧ get firstByte s [1] = .value (some [9]) := by
  obtain ⟨s, reached, quiet, advanced, mounted, mounted', acked, acked'⟩ :=
    (machine firstByte).exists_reaches_of_run
      (fun s action => careful firstByte s action = true)
      (List.flatten [.call ⟨[0], some [7]⟩ :: List.replicate 6 (.stepCall 0 true),
        .reshard :: List.replicate 4 .stepReshard,
        .call ⟨[1], some [9]⟩ :: List.replicate 5 (.stepCall 1 true),
        .stepReshard :: .stepCall 1 true :: List.replicate 11 .stepReshard])
      freshNode
      (fun s => Quiescent s ∧ s.gs.gen = 1 ∧
        get firstByte s [0] ≠ .acquiring ∧ get firstByte s [1] ≠ .acquiring ∧
        s.acked [0] = some [7] ∧ s.acked [1] = some [9])
      (by decide)
  refine ⟨s, reached, quiet, advanced, ?_, ?_⟩
  · rw [← acked]
    exact (get_eq_last_acked freshNode_initial reached [0]).resolve_right mounted
  · rw [← acked']
    exact (get_eq_last_acked freshNode_initial reached [1]).resolve_right mounted'

/-- Without the condition acked writes are lost: a failed write evicts the mount of the unit, and
the next reshard advances past its contents; or a call whose pause key is from before two reshards
writes to a unit after the final copy of the second. -/
theorem reshard_loses_acked_write :
    (∃ s, (machine firstByte).Reaches anyAction freshNode s ∧ Quiescent s ∧
      s.acked [0] = some [1] ∧ get firstByte s [0] = .value none) ∧
    (∃ s, (machine firstByte).Reaches anyAction freshNode s ∧ Quiescent s ∧
      s.acked [1] = some [1] ∧ get firstByte s [1] = .value none) := by
  constructor
  · exact (machine firstByte).exists_reaches_of_run anyAction
      (List.flatten [.call ⟨[0], some [1]⟩ :: List.replicate 6 (.stepCall 0 true),
        .call ⟨[0], some [2]⟩ :: List.replicate 7 (.stepCall 1 false),
        .reshard :: List.replicate 2 .stepReshard,
        [.acquire ⟨1, 0⟩, .acquire ⟨1, 1⟩, .stepReshard]])
      freshNode _ (by decide)
  · exact (machine firstByte).exists_reaches_of_run anyAction
      (List.flatten [[.call ⟨[1], some [1]⟩, .stepCall 0 true],
        .reshard :: List.replicate 13 .stepReshard,
        .reshard :: List.replicate 18 .stepReshard, List.replicate 5 (.stepCall 0 true),
        List.replicate 5 .stepReshard])
      freshNode _ (by decide)

end Shale.SingleNode
