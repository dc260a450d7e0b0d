import Shale.Foundation.Fencing
import Shale.Foundation.Machine
import Shale.Replication.Routing

/-!
# The designated owner of a pin unit

`pkg/cluster/cas_transition.go`. A compare-and-set commit is validated and applied on one
node, and `casDesignatedOwner` says which: the head of the unit's full placement, or the head
of its current placement while the former is joining. The node then opens its transaction on
`localWriteBackendForKey`: the position its full placement gives it if it has that mounted,
else the lowest position of the unit it has mounted.

The machine here runs the commits of one pin unit on any number of nodes. Every node acts on its
own view, which changes at any time; every position of the unit is a database of its own with its
own fencing chain, and a commit goes through while no later open of that position has fenced its
handle.
-/

namespace Shale

open List Machine

open Function (update update_of_ne)

namespace View

variable (v : View)

def multiReplicated (gu : GenUnit) : Bool := decide (1 < v.r) && !(v.locate gu []).isEmpty

def currentUnitReplicas (gu : GenUnit) : List Nat :=
  if v.joining = [] then v.unitReplicas gu
  else
    match currentReplicaSet (v.unitReplicas gu).length (v.locate gu v.joining).length v.r with
    | .fullRing => v.unitReplicas gu
    | .joinerExcluded => v.locate gu v.joining

def casDesignatedOwner (gu : GenUnit) : Nat :=
  let owner := v.unitOwnerOf gu
  if !v.multiReplicated gu then owner
  else if v.joining = [] then owner
  else if owner ∉ v.joining then owner
  else (v.currentUnitReplicas gu).headD owner

def ownsCASPin (gu : GenUnit) : Bool := v.casDesignatedOwner gu == v.self

def localReplicaPos (gu : GenUnit) : Option Nat :=
  if !v.multiReplicated gu then some 0
  else ((v.unitReplicas gu).findIdx? (· == v.self)).map (· % 256)

end View

namespace CasOwner

/-- A commit that has opened its transaction: the node it runs on, the position and the
epoch of the mount it resolved, and how many of the position's commits it has validated
against. -/
structure Running where
  node : Nat
  pos : Nat
  epoch : Nat
  seen : Option Nat

/-- A commit as its database has it. -/
structure Stored where
  node : Nat
  epoch : Nat

/-- A commit that went through: where it was applied, as which of the position's commits,
and how many of those its validation saw. -/
structure Applied where
  node : Nat
  pos : Nat
  index : Nat
  seen : Nat
deriving DecidableEq

structure State where
  view : Nat → View
  /-- The fencing chain of every position. -/
  opens : Nat → List Nat
  /-- The epoch a node has a position mounted at. -/
  mounts : Nat → Nat → Option Nat
  /-- The nodes with a commit that has passed the ownership gate and opened nothing yet. -/
  admitted : List Nat
  running : List Running
  /-- The commits each position's database holds. -/
  db : Nat → List Stored
  /-- Every commit that went through, in order. -/
  applied : List Applied

def State.initial (view : Nat → View) : State :=
  { view, opens := fun _ => [], mounts := fun _ _ => none, admitted := [], running := []
    db := fun _ => [], applied := [] }

inductive Action where
  /-- A view reaches a node. -/
  | see (node : Nat) (view : View)
  | openUnit (node pos : Nat)
  | closeUnit (node pos : Nat)
  /-- A commit passes the ownership gate of a node. -/
  | gate (node : Nat)
  /-- An admitted commit opens its transaction. -/
  | beginTx (node : Nat)
  | validate (i : Nat)
  | commit (i : Nat)
  | rollback (i : Nat)

namespace State

variable (s : State)

def viewOf (node : Nat) : View := { s.view node with self := node }

def lowestForUnit (node : Nat) : Option Nat :=
  (List.range 256).find? fun pos => (s.mounts node pos).isSome

def localWriteBackendForKey (gu : GenUnit) (node : Nat) : Option (Nat × Nat) :=
  let indexed := do
    let pos ← (s.viewOf node).localReplicaPos gu
    let epoch ← s.mounts node pos
    pure (pos, epoch)
  match indexed with
  | some mount => some mount
  | none => do
      let pos ← s.lowestForUnit node
      let epoch ← s.mounts node pos
      pure (pos, epoch)

def see (node : Nat) (view : View) : State :=
  { s with view := update s.view node view }

def openUnit (node pos : Nat) : State :=
  { s with
    opens := update s.opens pos (s.opens pos ++ [node])
    mounts := update s.mounts node
      (update (s.mounts node) pos (some (s.opens pos).length)) }

def closeUnit (node pos : Nat) : State :=
  { s with mounts := update s.mounts node (update (s.mounts node) pos none) }

def admitCommit (node : Nat) : State := { s with admitted := s.admitted ++ [node] }

def start (node : Nat) (mount : Nat × Nat) : State :=
  { s with
    admitted := s.admitted.erase node
    running := s.running ++ [⟨node, mount.1, mount.2, none⟩] }

def validate (i : Nat) (r : Running) : State :=
  { s with running := s.running.set i { r with seen := some (s.db r.pos).length } }

def apply (i : Nat) (r : Running) (seen : Nat) : State :=
  { s with
    running := s.running.eraseIdx i
    db := update s.db r.pos (s.db r.pos ++ [⟨r.node, r.epoch⟩])
    applied := s.applied ++ [⟨r.node, r.pos, (s.db r.pos).length, seen⟩] }

def drop (i : Nat) : State := { s with running := s.running.eraseIdx i }

end State

def step (gu : GenUnit) : Action → State → Option State
  | .see node view, s => some (s.see node view)
  | .openUnit node pos, s => if pos < 256 then some (s.openUnit node pos) else none
  | .closeUnit node pos, s => some (s.closeUnit node pos)
  | .gate node, s => if (s.viewOf node).ownsCASPin gu then some (s.admitCommit node) else none
  | .beginTx node, s =>
    if node ∈ s.admitted then (s.localWriteBackendForKey gu node).map (s.start node) else none
  | .validate i, s => s.running[i]?.map (s.validate i)
  | .commit i, s => do
      let r ← s.running[i]?
      let seen ← r.seen
      if Fencing.Unfenced (s.opens r.pos) r.epoch then some (s.apply i r seen) else none
  | .rollback i, s => s.running[i]?.map fun _ => s.drop i

def machine (gu : GenUnit) : Machine State Action := ⟨step gu⟩

/-- A commit opens its transaction only on a node that has position 0 mounted, and does not
have mounted the position its full placement gives it unless that is position 0. -/
def Anchored (gu : GenUnit) (s : State) : Action → Prop
  | .beginTx node =>
    (s.mounts node 0).isSome = true ∧
      ∀ pos ∈ (s.viewOf node).localReplicaPos gu, pos ≠ 0 → s.mounts node pos = none
  | _ => True

instance (gu : GenUnit) : DecidableRel (Anchored gu) := fun _ action => by
  cases action <;> unfold Anchored <;> infer_instance

variable {gu : GenUnit} {s s' : State}

variable {node : Nat}

theorem State.lowestForUnit_eq_zero (mounted : (s.mounts node 0).isSome = true) :
    s.lowestForUnit node = some 0 := by
  rw [State.lowestForUnit, range_succ_eq_map, List.find?_cons]
  simp only [mounted]

theorem mount_of_anchored {mount : Nat × Nat} (anchored : Anchored gu s (.beginTx node))
    (resolved : s.localWriteBackendForKey gu node = some mount) :
    mount.1 = 0 ∧ s.mounts node 0 = some mount.2 := by
  obtain ⟨mounted, apart⟩ := anchored
  obtain ⟨epoch, held⟩ := Option.isSome_iff_exists.mp mounted
  have lowest := State.lowestForUnit_eq_zero mounted
  unfold State.localWriteBackendForKey at resolved
  cases indexed : (s.viewOf node).localReplicaPos gu with
  | none =>
    obtain rfl : (0, epoch) = mount := by simpa [indexed, lowest, held] using resolved
    exact ⟨rfl, held⟩
  | some pos =>
    by_cases first : pos = 0
    · subst pos
      obtain rfl : (0, epoch) = mount := by simpa [indexed, held] using resolved
      exact ⟨rfl, held⟩
    · have missing := apart pos indexed first
      obtain rfl : (0, epoch) = mount := by
        simpa [indexed, missing, lowest, held] using resolved
      exact ⟨rfl, held⟩

/-- What every anchored run keeps of the chain and the database of position 0. -/
structure Inv (s : State) : Prop where
  mounted : ∀ node epoch, s.mounts node 0 = some epoch →
    Fencing.OpenedBy (s.opens 0) epoch node
  running : ∀ r ∈ s.running, r.pos = 0 ∧ Fencing.OpenedBy (s.opens 0) r.epoch r.node
  stored : ∀ entry ∈ s.db 0, Fencing.OpenedBy (s.opens 0) entry.epoch entry.node
  -- what was applied after a validation is of its own epoch or of a later one
  validated : ∀ r ∈ s.running, ∀ seen, r.seen = some seen →
    ∀ entry ∈ (s.db 0).drop seen, r.epoch ≤ entry.epoch
  applied : ∀ a ∈ s.applied, a.pos = 0 ∧ ∃ epoch, (s.db 0)[a.index]? = some ⟨a.node, epoch⟩
  ordered : s.applied.Pairwise fun earlier later =>
    earlier.node ≠ later.node → earlier.index < later.seen

namespace Inv

theorem initial (view : Nat → View) : Inv (.initial view) where
  mounted := by simp [State.initial]
  running := by simp [State.initial]
  stored := by simp [State.initial]
  validated := by simp [State.initial]
  applied := by simp [State.initial]
  ordered := List.Pairwise.nil

section

variable (inv : Inv s)
include inv

theorem see (node : Nat) (view : View) : Inv (s.see node view) :=
  ⟨inv.mounted, inv.running, inv.stored, inv.validated, inv.applied, inv.ordered⟩

theorem admitCommit (node : Nat) : Inv (s.admitCommit node) :=
  ⟨inv.mounted, inv.running, inv.stored, inv.validated, inv.applied, inv.ordered⟩

theorem openUnit (node pos : Nat) : Inv (s.openUnit node pos) := by
  have kept : ∀ {epoch holder}, Fencing.OpenedBy (s.opens 0) epoch holder →
      Fencing.OpenedBy ((s.openUnit node pos).opens 0) epoch holder := by
    intro epoch holder opened
    by_cases first : pos = 0
    · subst pos
      simpa [State.openUnit] using opened.append [node]
    · simpa [State.openUnit, update_of_ne (Ne.symm first)] using opened
  refine ⟨?_, ?_, ?_, inv.validated, inv.applied, inv.ordered⟩
  · intro holder epoch held
    by_cases same : holder = node ∧ pos = 0
    · obtain ⟨rfl, rfl⟩ := same
      obtain rfl : (s.opens 0).length = epoch := by simpa [State.openUnit] using held
      simpa [State.openUnit] using Fencing.openedBy_append_self
    · apply kept
      apply inv.mounted
      by_cases own : holder = node
      · subst own
        have other : 0 ≠ pos := fun first => same ⟨rfl, first.symm⟩
        simpa [State.openUnit, update_of_ne other] using held
      · simpa [State.openUnit, update_of_ne own] using held
  · exact fun r member => ⟨(inv.running r member).1, kept (inv.running r member).2⟩
  · exact fun entry member => kept (inv.stored entry member)

theorem closeUnit (node pos : Nat) : Inv (s.closeUnit node pos) := by
  refine ⟨?_, inv.running, inv.stored, inv.validated, inv.applied, inv.ordered⟩
  intro holder epoch held
  apply inv.mounted
  by_cases own : holder = node
  · subst own
    by_cases first : pos = 0
    · subst pos
      simp [State.closeUnit] at held
    · simpa [State.closeUnit, update_of_ne (Ne.symm first)] using held
  · simpa [State.closeUnit, update_of_ne own] using held

theorem start {node : Nat} {mount : Nat × Nat} (first : mount.1 = 0)
    (held : s.mounts node 0 = some mount.2) : Inv (s.start node mount) := by
  refine ⟨inv.mounted, ?_, inv.stored, ?_, inv.applied, inv.ordered⟩
  · intro r mem
    rcases mem_snoc.mp mem with old | rfl
    · exact inv.running r old
    · exact ⟨first, inv.mounted node mount.2 held⟩
  · intro r mem seen validated
    rcases mem_snoc.mp mem with old | rfl
    · exact inv.validated r old seen validated
    · cases validated

variable {r : Running}

variable {i seen : Nat}

theorem validate (found : s.running[i]? = some r) : Inv (s.validate i r) := by
  have own := inv.running r (mem_of_getElem? found)
  refine ⟨inv.mounted, ?_, inv.stored, ?_, inv.applied, inv.ordered⟩
  · intro other mem
    rcases mem_or_eq_of_mem_set mem with old | rfl
    · exact inv.running other old
    · exact own
  · intro other mem seen validated
    rcases mem_or_eq_of_mem_set mem with old | rfl
    · exact inv.validated other old seen validated
    · cases validated
      -- nothing lies behind what was just seen
      simp [own.1, State.validate]

theorem drop (i : Nat) : Inv (s.drop i) :=
  ⟨inv.mounted, fun r member => inv.running r (mem_of_mem_eraseIdx member), inv.stored,
    fun r member => inv.validated r (mem_of_mem_eraseIdx member), inv.applied, inv.ordered⟩

theorem seen_of_unfenced (mem : r ∈ s.running) (validated : r.seen = some seen)
    (unfenced : Fencing.Unfenced (s.opens 0) r.epoch) {a : Applied} (done : a ∈ s.applied)
    (other : a.node ≠ r.node) : a.index < seen := by
  by_contra late
  obtain ⟨_, epoch, entry⟩ := inv.applied a done
  have opened := inv.stored _ (mem_of_getElem? entry)
  have behind : (⟨a.node, epoch⟩ : Stored) ∈ (s.db 0).drop seen := by
    refine mem_of_getElem? (i := a.index - seen) ?_
    rw [List.getElem?_drop, Nat.add_sub_cancel' (Nat.not_lt.mp late)]
    exact entry
  have above := inv.validated r mem seen validated _ behind
  have below := unfenced.le opened
  obtain rfl := Nat.le_antisymm below above
  exact other (opened.unique (inv.running r mem).2)

theorem apply (found : s.running[i]? = some r) (validated : r.seen = some seen)
    (unfenced : Fencing.Unfenced (s.opens r.pos) r.epoch) :
    Inv (s.apply i r seen) := by
  have member := mem_of_getElem? found
  obtain ⟨first, opened⟩ := inv.running r member
  rw [first] at unfenced
  have grown : (s.apply i r seen).db 0 = s.db 0 ++ [⟨r.node, r.epoch⟩] := by
    simp [State.apply, first]
  refine ⟨inv.mounted, fun other kept => inv.running other (mem_of_mem_eraseIdx kept),
    ?_, ?_, ?_, ?_⟩
  · intro entry stored
    rw [grown] at stored
    rcases mem_snoc.mp stored with old | rfl
    · exact inv.stored entry old
    · exact opened
  · intro other kept before saw entry stored
    have old := mem_of_mem_eraseIdx kept
    rw [grown, drop_append] at stored
    rcases mem_append.mp stored with early | new
    · exact inv.validated other old before saw entry early
    · obtain rfl := mem_singleton.mp (mem_of_mem_drop new)
      exact unfenced.le (inv.running other old).2
  · intro a done
    rw [grown]
    rcases mem_snoc.mp done with old | rfl
    · obtain ⟨at0, epoch, entry⟩ := inv.applied a old
      refine ⟨at0, epoch, ?_⟩
      rw [List.getElem?_append_left (List.getElem?_eq_some_iff.mp entry).1]
      exact entry
    · refine ⟨first, r.epoch, ?_⟩
      simp [first]
  · refine pairwise_append.mpr ⟨inv.ordered, pairwise_singleton _ _, ?_⟩
    intro earlier done later new other
    obtain rfl := mem_singleton.mp new
    exact inv.seen_of_unfenced member validated unfenced done other

theorem step {action : Action} (anchored : Anchored gu s action)
    (stepped : (machine gu).step action s = some s') : Inv s' := by
  cases action with
  | see node view =>
    cases stepped
    exact inv.see node view
  | openUnit node pos =>
    obtain ⟨_, rfl⟩ := of_guard stepped
    exact inv.openUnit node pos
  | closeUnit node pos =>
    cases stepped
    exact inv.closeUnit node pos
  | gate node =>
    obtain ⟨_, rfl⟩ := of_guard stepped
    exact inv.admitCommit node
  | beginTx node =>
    obtain ⟨_, started⟩ := Option.ite_none_right_eq_some.mp stepped
    obtain ⟨mount, resolved, rfl⟩ := Option.map_eq_some_iff.mp started
    obtain ⟨first, held⟩ := mount_of_anchored anchored resolved
    exact inv.start first held
  | validate i =>
    obtain ⟨r, found, rfl⟩ := Option.map_eq_some_iff.mp stepped
    exact inv.validate found
  | commit i =>
    obtain ⟨r, found, rest⟩ := Option.bind_eq_some_iff.mp stepped
    obtain ⟨seen, validated, rest⟩ := Option.bind_eq_some_iff.mp rest
    obtain ⟨unfenced, rfl⟩ := of_guard rest
    exact inv.apply found validated unfenced
  | rollback i =>
    obtain ⟨_, _, rfl⟩ := Option.map_eq_some_iff.mp stepped
    exact inv.drop i

end

theorem of_reaches {view : Nat → View}
    (reached : (machine gu).Reaches (Anchored gu) (.initial view) s) : Inv s :=
  reached.invariant (initial view) fun inv anchored stepped => inv.step anchored stepped

end Inv

/-- **In every run of anchored commits, two commits of different nodes are both applied at
position 0, and the later one has validated against the earlier one.** -/
theorem commits_meet_at_first_position {gu : GenUnit} {view : Nat → View} {s : State}
    (reached : (machine gu).Reaches (Anchored gu) (.initial view) s) :
    s.applied.Pairwise fun earlier later => earlier.node ≠ later.node →
      earlier.pos = 0 ∧ later.pos = 0 ∧ earlier.index < later.seen := by
  have inv := Inv.of_reaches reached
  refine inv.ordered.imp_of_mem ?_
  intro earlier later done done' ordered other
  exact ⟨(inv.applied earlier done).1, (inv.applied later done').1, ordered other⟩

def pinUnit : GenUnit := ⟨0, 0⟩

def joinView (full joining : List Nat) : View where
  self := 0
  r := 2
  gs := .steady 0 .one
  joining := joining
  draining := []
  locate := fun _ excluded => if excluded = [] then full else [1, 3]

def displacedRun : List Action :=
  [.openUnit 1 0, .openUnit 3 1, .gate 1, .beginTx 1, .validate 0, .commit 0,
    .openUnit 2 0, .see 2 (joinView [2, 3] []), .gate 2, .beginTx 2, .validate 0, .commit 0]

theorem displaced_commit_is_seen :
    ∃ s, (machine pinUnit).Reaches (Anchored pinUnit) (.initial fun _ => joinView [2, 3] [2]) s ∧
      s.applied = [⟨1, 0, 0, 0⟩, ⟨2, 0, 1, 1⟩] ∧
      s.applied.Pairwise fun earlier later => earlier.node ≠ later.node →
        earlier.pos = 0 ∧ later.pos = 0 ∧ earlier.index < later.seen := by
  have reached := reaches_endOf (machine pinUnit) (Anchored pinUnit) displacedRun
    (.initial fun _ => joinView [2, 3] [2]) (by decide)
  exact ⟨_, reached, by decide, commits_meet_at_first_position reached⟩

/-- The join only moves node 1 from the first position to the second. It mounts that too, and
from then on its full placement sends it there: its commit is not fenced by the open of
position 0 and not seen by the commit of node 2, to which the end of the join has come
earlier. -/
def shiftedRun : List Action :=
  [.openUnit 1 0, .openUnit 3 1, .openUnit 1 1, .openUnit 2 0, .see 2 (joinView [2, 1] []),
    .gate 1, .beginTx 1, .validate 0, .commit 0, .gate 2, .beginTx 2, .validate 0, .commit 0]

/-- A node whose view is behind and the new owner both commit, at different positions. -/
theorem two_owners_commit_apart :
    ∃ s, (machine pinUnit).Reaches anyAction (.initial fun _ => joinView [2, 1] [2]) s ∧
      s.applied = [⟨1, 1, 0, 0⟩, ⟨2, 0, 0, 0⟩] :=
  exists_reaches_of_run _ _ shiftedRun _ _ (by decide)

end CasOwner

end Shale
