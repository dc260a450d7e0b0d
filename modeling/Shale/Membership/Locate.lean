import Shale.Foundation.Calls
import Shale.Foundation.Memo
import Shale.Membership.Observer
import Shale.Replication.Codec
import Shale.Storage.Generation

/-!
# Placement with members left out

`Locate` of the coordinator answers from the published snapshot. Where it is asked to leave
members out, it builds a ring of the others, and remembers the last one it has built under the
set it has left out and the epoch of the snapshot. The calls share that memo, while passes over
the document publish new snapshots.

The consistent hash is a parameter: some function of the IDs on the ring.
-/

namespace Shale.Membership

open List Machine

abbrev ClosestN := Finset String → Bytes → Nat → Option (List String)

def genUnitBytes (u : GenUnit) : Bytes := Wire.bigEndian 8 u.gen ++ Wire.bigEndian 4 u.id

/-- `ring.ShardKey`: what stands between the first opening brace and the closing one after it,
unless it is empty. -/
def shardKey (key : Bytes) : Bytes :=
  match key.dropWhile fun byte => byte ≠ 0x7b with
  | [] => key
  | _ :: rest =>
    let tag := rest.takeWhile fun byte => byte ≠ 0x7d
    if tag.length = rest.length ∨ tag = [] then key else tag

def Ring.of (nodes : List Node) : Ring := nodes.foldl Ring.add []

def Ring.get (r : Ring) (id : String) : Node := (r.find? fun node => node.id = id).getD ⟨"", ""⟩

def Ring.locateKeyN (closestN : ClosestN) (r : Ring) (key : Bytes) (n : Int) : List Node :=
  if n ≤ 0 ∨ r = [] then []
  else
    match closestN (r.map Node.id).toFinset (shardKey key) (min n.toNat r.length) with
    | none => []
    | some raw => raw.map r.get

/-- An exclusion set, in the order in which the map is iterated. No node ID has a NUL byte. -/
structure Exclusion where
  ids : List String
  nodup : ids.Nodup
  noNul : ∀ id ∈ ids, '\x00' ∉ id.toList
deriving DecidableEq

def Exclusion.remaining (exclude : Exclusion) (s : Snapshot) : List Node :=
  (s.view.members.filter fun member => member.node.id ∉ exclude.ids).map Member.node

def excludeKey (exclude : Exclusion) : String :=
  "\x00".intercalate (exclude.ids.insertionSort (· ≤ ·))

def reducedKey (asked : Snapshot × Exclusion) : String × Nat :=
  (excludeKey asked.2, asked.1.view.epoch)

def reducedRing (asked : Snapshot × Exclusion) : Ring := .of (asked.2.remaining asked.1)

/-- What the calls of one coordinator share, and every snapshot it has had. -/
structure Placer where
  observer : Observer
  reduced : Option ((String × Nat) × Ring)
  snapshots : List Snapshot

def Placer.new : Placer := ⟨.new, none, [Observer.new.snap]⟩

namespace Locate

inductive Op where
  | publish (rows : List DocRow)
  | locate (u : GenUnit) (n : Int) (exclude : Exclusion)
deriving DecidableEq

/-- The access that a call makes next, with what it has read. -/
inductive Phase where
  | publishing (rows : List DocRow)
  | published
  | asked (u : GenUnit) (n : Int) (exclude : Exclusion)
  | reducing (s : Snapshot) (u : GenUnit) (n : Int) (exclude : Exclusion)
  | answered (s : Snapshot) (nodes : List Node)
deriving DecidableEq

section Protocol

variable (closestN : ClosestN) (self : Node)

def access (p : Placer) : Phase → Placer × Phase
  | .publishing rows =>
    let observer := (publish self rows p.observer).1
    ({ p with observer, snapshots := observer.snap :: p.snapshots }, .published)
  | .asked u n exclude =>
    let s := p.observer.snap
    if n ≤ 0 then (p, .answered s [])
    else
      match s.ring with
      | none => (p, .answered s [])
      | some r =>
        if exclude.ids = [] then (p, .answered s (r.locateKeyN closestN (genUnitBytes u) n))
        else (p, .reducing s u n exclude)
  | .reducing s u n exclude =>
    let (reduced, r) := Memo.fetch reducedKey reducedRing p.reduced (s, exclude)
    ({ p with reduced },
      .answered s (if r = [] then [] else r.locateKeyN closestN (genUnitBytes u) n))
  | phase => (p, phase)

def protocol : Protocol Placer Op Phase where
  start
    | .publish rows => .publishing rows
    | .locate u n exclude => .asked u n exclude
  access := access closestN self
  fail := id
  returned
    | .published | .answered .. => true
    | _ => false

end Protocol

end Locate

variable {e : Exclusion}

theorem splitOn_excludeKey (excludes : e.ids ≠ []) :
    (excludeKey e).toList.splitOn '\x00' = (e.ids.insertionSort (· ≤ ·)).map String.toList := by
  have sorted := perm_insertionSort (· ≤ ·) e.ids
  rw [excludeKey, String.toList_intercalate]
  refine splitOn_intercalate '\x00' ?_ ?_
  · intro chars listed
    obtain ⟨id, mem, rfl⟩ := mem_map.mp listed
    exact e.noNul id (sorted.mem_iff.mp mem)
  · intro none
    rw [map_eq_nil_iff] at none
    exact excludes (none ▸ sorted).nil_eq.symm

theorem perm_of_excludeKey_eq {e' : Exclusion} (excludes : e.ids ≠ []) (excludes' : e'.ids ≠ [])
    (same : excludeKey e = excludeKey e') : e.ids.Perm e'.ids := by
  have lists : (e.ids.insertionSort (· ≤ ·)).map String.toList =
      (e'.ids.insertionSort (· ≤ ·)).map String.toList := by
    rw [← splitOn_excludeKey excludes, same, splitOn_excludeKey excludes']
  have ids := map_injective_iff.mpr (fun _ _ => String.toList_injective) lists
  exact (perm_insertionSort _ e.ids).symm.trans (ids ▸ perm_insertionSort _ e'.ids)

def Snapshot.Built (s : Snapshot) : Prop :=
  s.ring = some (.of (s.view.members.map Member.node)) ∨ s.ring = none ∧ s.view.members = []

theorem built_publish {self : Node} {rows : List DocRow} {o : Observer} (built : o.snap.Built) :
    (publish self rows o).1.snap.Built := by
  rcases publish_cases self rows o with ⟨-, kept⟩ | ⟨-, ring, swapped, fresh | ⟨same, some, nodes⟩⟩
  · rw [kept]
    exact built
  · rw [swapped]
    exact .inl fresh
  · rw [swapped]
    rcases built with built | ⟨none, -⟩
    · refine .inl (same.trans (built.trans ?_))
      rw [nodes]
    · exact absurd (same.trans none) some

theorem epoch_publish (self : Node) (rows : List DocRow) (o : Observer) :
    (publish self rows o).1.snap = o.snap ∧ (publish self rows o).1.epoch = o.epoch ∨
      (publish self rows o).1.snap.view.epoch = o.epoch + 1 ∧
        (publish self rows o).1.epoch = o.epoch + 1 := by
  rcases publish_cases self rows o with ⟨-, kept⟩ | ⟨-, ring, swapped, -⟩
  · rw [kept]
    exact .inl ⟨rfl, rfl⟩
  · rw [swapped]
    exact .inr ⟨rfl, rfl⟩

def Snapshot.locateWithout (closestN : ClosestN) (s : Snapshot) (u : GenUnit) (n : Int)
    (exclude : Exclusion) : List Node :=
  Ring.locateKeyN closestN (.of (exclude.remaining s)) (genUnitBytes u) n

theorem locateKeyN_nil (closestN : ClosestN) (key : Bytes) (n : Int) :
    Ring.locateKeyN closestN [] key n = [] := by
  simp [Ring.locateKeyN]

namespace Locate

variable {closestN : ClosestN} {self : Node}

def Asked (p : Placer) (asked : Snapshot × Exclusion) : Prop :=
  asked.1 ∈ p.snapshots ∧ asked.2.ids ≠ []

/-- What holds of the shared state: an epoch belongs to one snapshot, and the memo holds the
ring of a snapshot and an exclusion set. -/
structure Good (p : Placer) : Prop where
  current : p.observer.snap ∈ p.snapshots
  built : ∀ s ∈ p.snapshots, s.Built
  epoch_le : ∀ s ∈ p.snapshots, s.view.epoch ≤ p.observer.epoch
  epoch_inj : ∀ s ∈ p.snapshots, ∀ s' ∈ p.snapshots, s.view.epoch = s'.view.epoch → s = s'
  memo : Memo.Sound reducedKey reducedRing (Asked p) p.reduced

/-- How far a call has come, and that what it has answered is the placement on the ring of the
members that remain. -/
inductive Owns (closestN : ClosestN) (p : Placer) : Op → Phase → Prop where
  | publishing (rows : List DocRow) : Owns closestN p (.publish rows) (.publishing rows)
  | published (rows : List DocRow) : Owns closestN p (.publish rows) .published
  | asked (u : GenUnit) (n : Int) (exclude : Exclusion) :
      Owns closestN p (.locate u n exclude) (.asked u n exclude)
  | reducing {s : Snapshot} {u : GenUnit} {n : Int} {exclude : Exclusion}
      (loaded : s ∈ p.snapshots) (excludes : exclude.ids ≠ []) :
      Owns closestN p (.locate u n exclude) (.reducing s u n exclude)
  | answered {s : Snapshot} {u : GenUnit} {n : Int} {exclude : Exclusion}
      (loaded : s ∈ p.snapshots) :
      Owns closestN p (.locate u n exclude) (.answered s (s.locateWithout closestN u n exclude))

theorem good_new : Good .new where
  current := mem_singleton_self _
  built := by
    intro s listed
    obtain rfl := mem_singleton.mp listed
    exact .inr ⟨rfl, rfl⟩
  epoch_le := by
    intro s listed
    obtain rfl := mem_singleton.mp listed
    exact le_rfl
  epoch_inj := by
    intro s listed s' listed' _
    rw [mem_singleton.mp listed, mem_singleton.mp listed']
  memo := Memo.sound_none

variable {p : Placer}

theorem Good.publish (good : Good p) (rows : List DocRow) :
    Good { p with
      observer := (Membership.publish self rows p.observer).1
      snapshots := (Membership.publish self rows p.observer).1.snap :: p.snapshots } where
  current := mem_cons_self
  built := forall_mem_cons.mpr
    ⟨built_publish (good.built _ good.current), good.built⟩
  epoch_le := by
    rcases epoch_publish self rows p.observer with ⟨snap, epoch⟩ | ⟨snap, epoch⟩
    · simp only [snap, epoch]
      exact forall_mem_cons.mpr ⟨good.epoch_le _ good.current, good.epoch_le⟩
    · refine forall_mem_cons.mpr ⟨(snap.trans epoch.symm).le, fun s listed => ?_⟩
      exact (good.epoch_le s listed).trans (epoch ▸ Nat.le_succ _)
  epoch_inj := by
    rcases epoch_publish self rows p.observer with ⟨snap, -⟩ | ⟨snap, -⟩
    · simp only [snap]
      intro s listed s' listed' same
      have known : ∀ s ∈ p.observer.snap :: p.snapshots, s ∈ p.snapshots :=
        forall_mem_cons.mpr ⟨good.current, fun _ listed => listed⟩
      exact good.epoch_inj s (known s listed) s' (known s' listed') same
    · have newer : ∀ s ∈ p.snapshots,
          s.view.epoch ≠ (Membership.publish self rows p.observer).1.snap.view.epoch := by
        intro s listed
        have := good.epoch_le s listed
        omega
      intro s listed s' listed' same
      rcases mem_cons.mp listed with rfl | earlier
      · rcases mem_cons.mp listed' with rfl | earlier'
        · rfl
        · exact absurd same.symm (newer s' earlier')
      · rcases mem_cons.mp listed' with rfl | earlier'
        · exact absurd same (newer s earlier)
        · exact good.epoch_inj s earlier s' earlier' same
  memo := good.memo.mono fun _ asked => ⟨mem_cons_of_mem _ asked.1, asked.2⟩

theorem Good.coherent (good : Good p) (asked asked' : Snapshot × Exclusion) (mem : Asked p asked)
    (member' : Asked p asked') (same : reducedKey asked = reducedKey asked') :
    reducedRing asked = reducedRing asked' := by
  obtain ⟨s, e⟩ := asked
  obtain ⟨s', e'⟩ := asked'
  obtain ⟨key, epoch⟩ := Prod.mk.inj same
  obtain rfl := good.epoch_inj s mem.1 s' member'.1 epoch
  have perm := perm_of_excludeKey_eq mem.2 member'.2 key
  simp only [reducedRing, Exclusion.remaining, perm.mem_iff]

variable {exclude : Exclusion} {phase : Phase} {op : Op} {s : Snapshot}

theorem locate_of_built (built : s.Built) (all : exclude.ids = []) (u : GenUnit) (n : Int)
    {r : Ring} (ring : s.ring = some r) :
    r.locateKeyN closestN (genUnitBytes u) n = s.locateWithout closestN u n exclude := by
  have whole : exclude.remaining s = s.view.members.map Member.node := by
    simp [Exclusion.remaining, all]
  rw [Snapshot.locateWithout, whole]
  rcases built with built | ⟨none, -⟩
  · rw [Option.some.inj (ring.symm.trans built)]
  · cases ring.symm.trans none

variable (self) in
theorem access_asked (good : Good p) (u : GenUnit) (n : Int) (exclude : Exclusion) :
    ∃ phase, access closestN self p (.asked u n exclude) = (p, phase) ∧
      Owns closestN p (.locate u n exclude) phase := by
  have built := good.built _ good.current
  have answered : Owns closestN p (.locate u n exclude)
      (.answered p.observer.snap (p.observer.snap.locateWithout closestN u n exclude)) :=
    .answered good.current
  unfold access
  dsimp only
  by_cases none : n ≤ 0
  · have empty : p.observer.snap.locateWithout closestN u n exclude = [] := by
      simp [Snapshot.locateWithout, Ring.locateKeyN, none]
    rw [empty] at answered
    exact ⟨_, if_pos none, answered⟩
  · rw [if_neg none]
    cases ring : p.observer.snap.ring with
    | none =>
      have empty : p.observer.snap.locateWithout closestN u n exclude = [] := by
        rcases built with some | ⟨-, memberless⟩
        · cases ring.symm.trans some
        · simp [Snapshot.locateWithout, Exclusion.remaining, memberless, Ring.of, locateKeyN_nil]
      rw [empty] at answered
      exact ⟨_, rfl, answered⟩
    | some r =>
      by_cases all : exclude.ids = []
      · rw [← locate_of_built built all u n ring] at answered
        exact ⟨_, if_pos all, answered⟩
      · exact ⟨_, if_neg all, .reducing good.current all⟩

variable (self) in
theorem access_reducing (good : Good p) (loaded : s ∈ p.snapshots) (u : GenUnit) (n : Int)
    (excludes : exclude.ids ≠ []) :
    ∃ reduced, access closestN self p (.reducing s u n exclude) =
        ({ p with reduced }, .answered s (s.locateWithout closestN u n exclude)) ∧
      Memo.Sound reducedKey reducedRing (Asked p) reduced := by
  have asked : Asked p (s, exclude) := ⟨loaded, excludes⟩
  obtain ⟨fetched, sound⟩ := good.memo.fetch good.coherent asked
  have answer : (if reducedRing (s, exclude) = [] then [] else
      (reducedRing (s, exclude)).locateKeyN closestN (genUnitBytes u) n) =
        s.locateWithout closestN u n exclude := by
    split_ifs with empty
    · rw [Snapshot.locateWithout, ← locateKeyN_nil closestN (genUnitBytes u) n, ← empty]
      rfl
    · rfl
  unfold access
  dsimp only
  rw [fetched, answer]
  exact ⟨_, rfl, sound⟩

variable (self) in
theorem access_owns (good : Good p) (owns : Owns closestN p op phase) :
    Good (access closestN self p phase).1 ∧
      Owns closestN (access closestN self p phase).1 op (access closestN self p phase).2 ∧
      p.snapshots ⊆ (access closestN self p phase).1.snapshots := by
  cases owns with
  | publishing rows =>
    exact ⟨good.publish rows, .published rows, subset_cons_self _ _⟩
  | published rows => exact ⟨good, .published rows, List.Subset.refl _⟩
  | answered loaded => exact ⟨good, .answered loaded, List.Subset.refl _⟩
  | asked u n exclude =>
    obtain ⟨phase, loaded, own⟩ := access_asked self good u n exclude
    rw [loaded]
    exact ⟨good, own, List.Subset.refl _⟩
  | @reducing s u n exclude loaded excludes =>
    obtain ⟨reduced, fetched, sound⟩ := access_reducing self good loaded u n excludes
    rw [fetched]
    exact ⟨⟨good.current, good.built, good.epoch_le, good.epoch_inj, sound⟩, .answered loaded,
      List.Subset.refl _⟩

theorem Owns.mono {p' : Placer} (owns : Owns closestN p op phase)
    (grows : p.snapshots ⊆ p'.snapshots) : Owns closestN p' op phase := by
  cases owns with
  | publishing rows => exact .publishing rows
  | published rows => exact .published rows
  | asked u n exclude => exact .asked u n exclude
  | reducing loaded excludes => exact .reducing (grows loaded) excludes
  | answered loaded => exact .answered (grows loaded)

theorem owns_of_reaches {s : Calls Placer Op Phase}
    (reached : (protocol closestN self).machine.Reaches anyAction
      (Protocol.initial .new) s) :
    Good s.object ∧ ∀ call ∈ s.calls, Owns closestN s.object call.op call.phase := by
  refine Protocol.invariant Good (Owns closestN) reached good_new ?_ ?_ ?_
  · intro p op
    cases op with
    | publish rows => exact .publishing rows
    | locate u n exclude => exact .asked u n exclude
  · intro p op phase owns
    exact owns
  · intro p op phase good owns _
    obtain ⟨kept, own, grows⟩ := access_owns self good owns
    exact ⟨kept, own, fun other => other.mono grows⟩

/-- **Hypothetical placement is exact.** A call that leaves members out answers from one of the
published snapshots, as a coordinator whose view holds just the members that remain answers to a
call that leaves none out. -/
theorem locate_without_exact (closestN : ClosestN) (self : Node) (s : Calls Placer Op Phase)
    (reached : (protocol closestN self).machine.Reaches anyAction (Protocol.initial .new) s)
    (u : GenUnit) (n : Int) (exclude : Exclusion) (snap : Snapshot) (nodes : List Node)
    (call : ⟨.locate u n exclude, .answered snap nodes⟩ ∈ s.calls) :
    snap ∈ s.object.snapshots ∧
      nodes = snap.locateWithout closestN u n exclude ∧
      (exclude.remaining snap = [] → nodes = []) ∧
      ∀ (self' : Node) (t : Calls Placer Op Phase) (nobody : Exclusion) (snap' : Snapshot)
        (nodes' : List Node),
        (protocol closestN self').machine.Reaches anyAction (Protocol.initial .new) t →
        nobody.ids = [] → ⟨.locate u n nobody, .answered snap' nodes'⟩ ∈ t.calls →
        snap'.view.members.map Member.node = exclude.remaining snap → nodes = nodes' := by
  have owns := (owns_of_reaches reached).2 _ call
  cases owns with
  | answered loaded =>
    refine ⟨loaded, rfl, fun none => ?_, ?_⟩
    · rw [Snapshot.locateWithout, none]
      exact locateKeyN_nil _ _ _
    · intro self' t nobody snap' nodes' reached' all call' same
      have owns' := (owns_of_reaches reached').2 _ call'
      cases owns' with
      | answered =>
        have whole : nobody.remaining snap' = snap'.view.members.map Member.node := by
          simp [Exclusion.remaining, all]
        rw [Snapshot.locateWithout, Snapshot.locateWithout, whole, same]

def descending : ClosestN := fun ids _ count =>
  some ((["c", "b", "a"].filter fun id => id ∈ ids).take count)

def rowOf (id : String) : DocRow := ⟨id, id, 0, 0, 0, 0⟩

def leaver : Exclusion := ⟨["c"], by decide, by decide⟩

def nobody : Exclusion := ⟨[], by decide, by decide⟩

def beforeLeave : List (CallAction Op) :=
  [.call (.publish [rowOf "a", rowOf "b", rowOf "c"]), .access 0,
    .call (.locate ⟨0, 0⟩ 2 leaver), .access 1, .access 1]

def afterLeave : List (CallAction Op) :=
  [.call (.publish [rowOf "a", rowOf "b"]), .access 0,
    .call (.locate ⟨0, 0⟩ 2 nobody), .access 1]

def snapshotOf (ids : List String) : Snapshot :=
  ⟨⟨⟨"a", "a"⟩, ids.map fun id => ⟨⟨id, id⟩, 0, 0⟩, 1⟩, some (ids.map fun id => ⟨id, id⟩)⟩

theorem locate_without_exact_leave :
    ∃ s t nodes, (protocol descending ⟨"a", "a"⟩).machine.Reaches anyAction
        (Protocol.initial .new) s ∧
      (protocol descending ⟨"a", "a"⟩).machine.Reaches anyAction (Protocol.initial .new) t ∧
      ⟨.locate ⟨0, 0⟩ 2 leaver, .answered (snapshotOf ["a", "b", "c"]) nodes⟩ ∈ s.calls ∧
      ⟨.locate ⟨0, 0⟩ 2 nobody, .answered (snapshotOf ["a", "b"]) nodes⟩ ∈ t.calls := by
  obtain ⟨s, reached, call⟩ := (protocol descending ⟨"a", "a"⟩).machine.exists_reaches_of_run
    anyAction beforeLeave (Protocol.initial .new)
    (fun s => ⟨.locate ⟨0, 0⟩ 2 leaver,
      .answered (snapshotOf ["a", "b", "c"]) [⟨"b", "b"⟩, ⟨"a", "a"⟩]⟩ ∈ s.calls) (by decide)
  obtain ⟨t, reached', call'⟩ := (protocol descending ⟨"a", "a"⟩).machine.exists_reaches_of_run
    anyAction afterLeave (Protocol.initial .new)
    (fun t => ⟨.locate ⟨0, 0⟩ 2 nobody,
      .answered (snapshotOf ["a", "b"]) [⟨"b", "b"⟩, ⟨"a", "a"⟩]⟩ ∈ t.calls) (by decide)
  have same := (locate_without_exact descending _ s reached _ _ _ _ _ call).2.2.2
    _ t _ _ _ reached' rfl call' rfl
  exact ⟨s, t, _, reached, reached', call, same ▸ call'⟩

end Locate

end Shale.Membership
