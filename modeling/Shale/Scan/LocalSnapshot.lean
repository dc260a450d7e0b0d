import Shale.Foundation.Sorting
import Shale.Replication.Codec
import Shale.Storage.Generation

/-!
# The local snapshot of an aggregate

`localMountedSnapshot` loads every mounted position into one in-memory store, for the part of an
aggregate that runs on the node itself. The positions are loaded in ascending order of
generation, unit and replica, each over the ones before it, without regard to the stamps.
-/

namespace Shale

def genUnitLess (a b : GenUnit) : Bool :=
  if a.gen ≠ b.gen then decide (a.gen < b.gen) else decide (a.id < b.id)

def replicaUnitLess (a b : ReplicaUnit) : Bool :=
  if a.unit ≠ b.unit then genUnitLess a.unit b.unit else decide (a.replica < b.replica)

def sortReplicaUnits (r : List ReplicaUnit) : List ReplicaUnit := InPlaceSort.sort replicaUnitLess r

def ReplicaUnit.rank (ru : ReplicaUnit) : Nat ×ₗ Nat ×ₗ Nat :=
  toLex (ru.unit.gen, toLex (ru.unit.id, ru.replica.toNat))

theorem ReplicaUnit.rank_injective : Function.Injective ReplicaUnit.rank := by
  rintro ⟨⟨gen, id⟩, replica⟩ ⟨⟨gen', id'⟩, replica'⟩ same
  obtain ⟨gens, rest⟩ := Prod.mk.inj (toLex.injective same)
  obtain ⟨ids, replicas⟩ := Prod.mk.inj (toLex.injective rest)
  cases gens
  cases ids
  cases UInt8.toNat_inj.mp replicas
  rfl

variable {a b : ReplicaUnit}

theorem replicaUnitLess_iff : replicaUnitLess a b = true ↔ a.rank < b.rank := by
  obtain ⟨⟨gen, id⟩, replica⟩ := a
  obtain ⟨⟨gen', id'⟩, replica'⟩ := b
  simp only [ReplicaUnit.rank, Prod.Lex.toLex_lt_toLex, ← UInt8.lt_iff_toNat_lt]
  unfold replicaUnitLess genUnitLess
  by_cases gens : gen = gen' <;> by_cases ids : id = id' <;> simp [gens, ids]

theorem replicaUnitLess_eq_false_iff :
    replicaUnitLess b a = false ↔ a.rank ≤ b.rank := by
  rw [← not_lt, ← replicaUnitLess_iff, Bool.not_eq_true]

theorem perm_sortReplicaUnits (r : List ReplicaUnit) : (sortReplicaUnits r).Perm r :=
  InPlaceSort.perm_sort r

theorem pairwise_sortReplicaUnits (r : List ReplicaUnit) :
    (sortReplicaUnits r).Pairwise fun a b => a.rank ≤ b.rank := by
  have ranks : ∀ a b, replicaUnitLess a b = true ↔ a.rank < b.rank := fun _ _ => replicaUnitLess_iff
  exact InPlaceSort.pairwise_sort ranks r

namespace LocalSnapshot

variable {Value Error : Type}

/-- A mounted position: its contents, and how a scan of it goes. A scan fails at once, or yields
entries and may end with an error; one that ends without has yielded the contents. -/
structure Mount (Value Error : Type) where
  db : Store Value
  scanPrefix : Except Error (List (Bytes × Value) × Option Error)
  complete : ∀ entries, scanPrefix = .ok (entries, none) → entries.Perm db.scan

/-- The loop over one position. -/
def load (snap : Store Value) (b : Mount Value Error) : Except Error (Store Value) :=
  match b.scanPrefix with
  | .error err => .error err
  | .ok (_, some err) => .error err
  | .ok (entries, none) => .ok (entries.foldl (fun snap entry => snap.put entry.1 entry.2) snap)

def localMountedSnapshot (before after : Option Error) (mounts : List ReplicaUnit)
    (b : ReplicaUnit → Mount Value Error) : Except Error (Store Value) :=
  match before with
  | some err => .error err
  | none =>
    match (sortReplicaUnits mounts).foldlM (fun snap ru => load snap (b ru)) ∅ with
    | .error err => .error err
    | .ok snap =>
      match after with
      | some err => .error err
      | none => .ok snap

variable {snap : Store Value} {key : Bytes} {b : ReplicaUnit → Mount Value Error}

variable {loaded : Store Value} {mounts : List ReplicaUnit}

theorem get_load {b : Mount Value Error} (ran : load snap b = .ok loaded) :
    loaded.get key = (b.db.get key).or (snap.get key) := by
  unfold load at ran
  split at ran
  · cases ran
  · cases ran
  case h_3 entries scanned =>
    cases ran
    have perm := b.complete entries scanned
    have distinct := (perm.map Prod.fst).nodup_iff.mpr b.db.nodup_scan
    refine Option.ext fun value => ?_
    rw [Store.get_foldl_put distinct, perm.mem_iff, Store.mem_scan, (perm.map Prod.fst).mem_iff]
    have listed : key ∈ b.db.scan.map Prod.fst ↔ (b.db.get key).isSome := by
      simp [Store.mem_scan, Option.isSome_iff_exists]
    rw [listed]
    cases b.db.get key <;> simp

theorem get_foldlM_load {order : List ReplicaUnit}
    (ran : order.foldlM (fun snap ru => load snap (b ru)) snap = .ok loaded) :
    (loaded.get key = snap.get key ∧ ∀ ru ∈ order, (b ru).db.get key = none) ∨
      ∃ front ru back, order = front ++ ru :: back ∧ ((b ru).db.get key).isSome ∧
        loaded.get key = (b ru).db.get key ∧ ∀ later ∈ back, (b later).db.get key = none := by
  induction order generalizing snap with
  | nil => exact .inl ⟨by cases ran; rfl, by simp⟩
  | cons first rest ih =>
    rw [List.foldlM_cons] at ran
    cases began : load snap (b first) with
    | error err => simp [began, bind, Except.bind] at ran
    | ok next =>
      rw [began] at ran
      rcases ih ran with ⟨kept, absent⟩ | ⟨front, ru, back, rfl, held, read, absent⟩
      · rw [get_load began] at kept
        cases held : (b first).db.get key with
        | some value =>
          exact .inr ⟨[], first, rest, rfl, by simp [held], by simp [kept, held], absent⟩
        | none =>
          exact .inl ⟨by simp [kept, held], by simpa [held] using absent⟩
      · exact .inr ⟨first :: front, ru, back, rfl, held, read, absent⟩

structure Last (mounts : List ReplicaUnit) (b : ReplicaUnit → Mount Value Error) (key : Bytes)
    (ru : ReplicaUnit) : Prop where
  mounted : ru ∈ mounts
  holds : ((b ru).db.get key).isSome
  last : ∀ other ∈ mounts, ((b other).db.get key).isSome → replicaUnitLess ru other = false

theorem Last.unique {left right : ReplicaUnit} (first : Last mounts b key left)
    (second : Last mounts b key right) : left = right := by
  have below := first.last right second.mounted second.holds
  have above := second.last left first.mounted first.holds
  rw [replicaUnitLess_eq_false_iff] at below above
  exact ReplicaUnit.rank_injective (le_antisymm above below)

theorem get_localMountedSnapshot {before after : Option Error}
    (ran : localMountedSnapshot before after mounts b = .ok snap) (key : Bytes) :
    (snap.get key = none ∧ ∀ ru ∈ mounts, (b ru).db.get key = none) ∨
      ∃ ru, Last mounts b key ru ∧ snap.get key = (b ru).db.get key := by
  have mem : ∀ ru, ru ∈ sortReplicaUnits mounts ↔ ru ∈ mounts :=
    fun ru => (perm_sortReplicaUnits mounts).mem_iff
  have loaded :
      (sortReplicaUnits mounts).foldlM (fun snap ru => load snap (b ru)) ∅ = .ok snap := by
    unfold localMountedSnapshot at ran
    repeat' split at ran
    all_goals cases ran
    assumption
  rcases get_foldlM_load loaded with
    ⟨kept, absent⟩ | ⟨front, ru, back, order, held, read, absent⟩
  · exact .inl ⟨kept.trans Store.get_empty, fun ru mounted => absent ru ((mem ru).mpr mounted)⟩
  · have sorted := pairwise_sortReplicaUnits mounts
    simp only [order] at sorted mem
    refine .inr ⟨ru, ⟨(mem ru).mp (by simp), held, fun other mounted holds => ?_⟩, read⟩
    rcases List.mem_append.mp ((mem other).mpr mounted) with early | late
    · exact replicaUnitLess_eq_false_iff.mpr
        ((List.pairwise_append.mp sorted).2.2 other early ru (by simp))
    · rcases List.mem_cons.mp late with rfl | late
      · exact replicaUnitLess_eq_false_iff.mpr le_rfl
      · simp [absent other late] at holds

def Newest (mounts : List ReplicaUnit) (b : ReplicaUnit → Mount Wire.Envelope Error)
    (key : Bytes) (env : Wire.Envelope) : Prop :=
  ∀ ru ∈ mounts, ∀ other ∈ (b ru).db.get key, other.stamp.greater env.stamp = false

/-- **The local snapshot and the stamps.** The snapshot has the newest envelope for every key
exactly if for every key the mounted position with it that comes last holds the newest. -/
theorem local_snapshot_newest_iff {before after : Option Error} {mounts : List ReplicaUnit}
    {b : ReplicaUnit → Mount Wire.Envelope Error} {snap : Store Wire.Envelope}
    (ran : localMountedSnapshot before after mounts b = .ok snap) :
    (∀ key, (∃ ru ∈ mounts, ((b ru).db.get key).isSome) → ∃ env, snap.get key = some env ∧
        (∃ ru ∈ mounts, (b ru).db.get key = some env) ∧ Newest mounts b key env) ↔
      ∀ key ru env, Last mounts b key ru → (b ru).db.get key = some env →
        Newest mounts b key env := by
  constructor
  · intro newest key ru env last held
    rcases get_localMountedSnapshot ran key with ⟨-, absent⟩ | ⟨other, also, read⟩
    · cases held.symm.trans (absent ru last.mounted)
    · cases last.unique also
      obtain ⟨found, shown, -, newest⟩ := newest key ⟨ru, last.mounted, last.holds⟩
      rw [read, held] at shown
      cases shown
      exact newest
  · rintro newest key ⟨ru, mounted, holds⟩
    rcases get_localMountedSnapshot ran key with ⟨-, absent⟩ | ⟨other, last, read⟩
    · simp [absent ru mounted] at holds
    · obtain ⟨env, held⟩ := Option.isSome_iff_exists.mp last.holds
      exact ⟨env, read.trans held, ⟨other, last.mounted, held⟩, newest key other env last held⟩

def holding (env : Wire.Envelope) : Mount Wire.Envelope String where
  db := Store.put ∅ [1] env
  scanPrefix := .ok ((Store.put ∅ [1] env).scan, none)
  complete := fun entries scanned => by cases scanned; rfl

def staleSecond (ru : ReplicaUnit) : Mount Wire.Envelope String :=
  holding (if ru.replica = 0 then ⟨⟨2, []⟩, [7]⟩ else ⟨⟨1, []⟩, []⟩)

/-- A tombstone with stamp 1 hides the value with stamp 2. -/
theorem local_snapshot_stale :
    ∃ snap, localMountedSnapshot none none [⟨⟨0, 0⟩, 0⟩, ⟨⟨0, 0⟩, 1⟩] staleSecond = .ok snap ∧
      snap.get [1] = some ⟨⟨1, []⟩, []⟩ ∧
      (staleSecond ⟨⟨0, 0⟩, 0⟩).db.get [1] = some ⟨⟨2, []⟩, [7]⟩ :=
  ⟨_, rfl, by decide, by decide⟩

/-- Two positions of a parent hold a tombstone with stamp 1, and a child, which the map yields
first, the value with stamp 2. -/
def staleParent (ru : ReplicaUnit) : Mount Wire.Envelope String :=
  holding (if ru.unit.gen = 0 then ⟨⟨1, []⟩, []⟩ else ⟨⟨2, []⟩, [7]⟩)

def childFirst : List ReplicaUnit := [⟨⟨1, 0⟩, 0⟩, ⟨⟨0, 0⟩, 1⟩, ⟨⟨0, 0⟩, 0⟩]

theorem local_snapshot_newest_child :
    (∀ key ru env, Last childFirst staleParent key ru → (staleParent ru).db.get key = some env →
        Newest childFirst staleParent key env) ∧
      ∃ snap, localMountedSnapshot none none childFirst staleParent = .ok snap ∧
        snap.get [1] = some ⟨⟨2, []⟩, [7]⟩ ∧
        ∀ key, (∃ ru ∈ childFirst, ((staleParent ru).db.get key).isSome) →
          ∃ env, snap.get key = some env ∧
            (∃ ru ∈ childFirst, (staleParent ru).db.get key = some env) ∧
            Newest childFirst staleParent key env := by
  have newest : ∀ key ru env, Last childFirst staleParent key ru →
      (staleParent ru).db.get key = some env → Newest childFirst staleParent key env := by
    intro key ru env last held
    obtain rfl : key = [1] := by
      by_contra other
      simp [staleParent, holding, Store.get_put_of_ne other] at held
    obtain rfl : ru = ⟨⟨1, 0⟩, 0⟩ := by
      have after := last.last ⟨⟨1, 0⟩, 0⟩ (by simp [childFirst]) (by simp [staleParent, holding])
      have mounted := last.mounted
      simp only [childFirst, List.mem_cons, List.not_mem_nil, or_false] at mounted
      rcases mounted with rfl | rfl | rfl
      · rfl
      all_goals cases after
    cases held.symm.trans Store.get_put_self
    unfold Newest
    decide
  have ran : localMountedSnapshot none none childFirst staleParent = .ok _ := rfl
  exact ⟨newest, _, ran, by decide, (local_snapshot_newest_iff ran).mpr newest⟩

end LocalSnapshot

end Shale
