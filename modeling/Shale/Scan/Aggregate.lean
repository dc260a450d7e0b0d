import Shale.Foundation.Fencing
import Shale.Foundation.Machine
import Shale.Replication.Routing
import Shale.Storage.Store

/-!
# Which keys an aggregate is handed

`Aggregate` (`cluster.go`) scans every member of the caller's view, each by a leg of its own.
A leg asks its node whether the mounts cover what the node desires (`scanCoverageErr`), takes
the list of mounts, scans them one after the other, and asks again at the end. Both answers
are about that node's own view at that time: nothing relates the lists of two legs.

The machine runs one aggregate over a single-copy cluster. Views reach the nodes in any order,
every node reconciles its mounts with its view in steps of its own, keys are put and deleted
through mounts that are not fenced, and the legs advance in between. The generation is steady,
so a key lies in one unit. `Aggregate.due` records the keys stored when the call began that
have not been deleted since.
-/

namespace Shale.Scan

open List Machine

open Function (update update_of_ne update_self)

structure Config where
  gen : Nat
  count : UnitCount
  hash : Bytes → ShardHash

def Config.unitOf (c : Config) (key : Bytes) : GenUnit :=
  (GenState.steady c.gen c.count).resolveGenUnit (c.hash key)

structure Mount where
  unit : GenUnit
  epoch : Nat
deriving DecidableEq

/-- Where a leg stands: not begun, past the first coverage check, scanning the mounts it has
listed, ended without an error, or refused. -/
inductive Phase where
  | waiting
  | checked
  | scanning (left : List Mount)
  | ended
  | refused
deriving DecidableEq

structure Leg where
  node : Nat
  phase : Phase
deriving DecidableEq

def Leg.pending (leg : Leg) : Bool :=
  match leg.phase with
  | .waiting | .checked => true
  | _ => false

structure Aggregate where
  legs : List Leg
  due : List Bytes
  handed : List Bytes
deriving DecidableEq

structure NodeView where
  placement : View
  members : List Nat

structure State where
  seen : Nat → NodeView
  /-- What a node's last reconcile has found desired. -/
  plan : Nat → List GenUnit
  /-- The fencing chain of every unit. -/
  opens : GenUnit → List Nat
  mounts : Nat → List Mount
  /-- The mounts whose handle a node has closed. -/
  closed : List (Nat × Mount)
  /-- The keys in the units' databases. -/
  stored : List Bytes
  aggregate : Option Aggregate

def State.initial (seen : Nat → NodeView) : State :=
  { seen, plan := fun _ => [], opens := fun _ => [], mounts := fun _ => [], closed := []
    stored := [], aggregate := none }

inductive Action where
  /-- A view reaches a node. -/
  | see (node : Nat) (seen : NodeView)
  /-- A node begins to reconcile. -/
  | reconcile (node : Nat)
  | release (node : Nat) (unit : GenUnit)
  | acquire (node : Nat) (unit : GenUnit)
  /-- A mount is dropped after a failed operation; its handle stays open. -/
  | evict (node : Nat) (unit : GenUnit)
  | put (node : Nat) (key : Bytes)
  | delete (node : Nat) (key : Bytes)
  /-- A node calls `Aggregate`. -/
  | call (caller : Nat)
  | check (i : Nat)
  | list (i : Nat)
  | scan (i : Nat)
  | finish (i : Nat)
  /-- A leg meets an error of the transport or of a backend. -/
  | fail (i : Nat)

namespace State

variable (s : State)

def desiredGenUnits (c : Config) (node : Nat) : List GenUnit :=
  ((List.range c.count.n).map (GenUnit.mk c.gen)).filter fun gu =>
    View.unitOwnerOf { (s.seen node).placement with self := node } gu == node

def covered (c : Config) (node : Nat) : Bool :=
  (s.desiredGenUnits c node).all fun gu => (s.mounts node).any fun m => m.unit == gu

def live (node : Nat) (m : Mount) : Bool :=
  decide (Fencing.Unfenced (s.opens m.unit) m.epoch) && !s.closed.contains (node, m)

def writable (node : Nat) (unit : GenUnit) : Bool :=
  (s.mounts node).any fun m => m.unit == unit && s.live node m

def see (node : Nat) (seen : NodeView) : State :=
  { s with seen := update s.seen node seen }

def reconcile (c : Config) (node : Nat) : State :=
  { s with plan := update s.plan node (s.desiredGenUnits c node) }

def evict (node : Nat) (unit : GenUnit) : State :=
  { s with
    mounts := update s.mounts node ((s.mounts node).filter fun m => m.unit != unit) }

def release (node : Nat) (unit : GenUnit) : State :=
  { s.evict node unit with
    closed := s.closed ++
      ((s.mounts node).filter fun m => m.unit == unit).map (Prod.mk node) }

def acquire (node : Nat) (unit : GenUnit) : State :=
  { s with
    opens := update s.opens unit (s.opens unit ++ [node])
    mounts := update s.mounts node
      (s.mounts node ++ [⟨unit, (s.opens unit).length⟩]) }

def put (key : Bytes) : State := { s with stored := s.stored ++ [key] }

def delete (key : Bytes) : State :=
  { s with
    stored := s.stored.filter fun other => other != key
    aggregate := s.aggregate.map fun agg =>
      { agg with due := agg.due.filter fun other => other != key } }

def call (caller : Nat) : State :=
  let legs := (s.seen caller).members.map fun node => Leg.mk node .waiting
  { s with aggregate := some ⟨legs, s.stored, []⟩ }

def keysOf (c : Config) (unit : GenUnit) : List Bytes :=
  s.stored.filter fun key => c.unitOf key == unit

def checkLeg (c : Config) (leg : Leg) : Option (Phase × List Bytes) :=
  match leg.phase with
  | .waiting => some (if s.covered c leg.node then .checked else .refused, [])
  | _ => none

def listLeg (leg : Leg) : Option (Phase × List Bytes) :=
  match leg.phase with
  | .checked => some (.scanning (s.mounts leg.node), [])
  | _ => none

def scanLeg (c : Config) (leg : Leg) : Option (Phase × List Bytes) :=
  match leg.phase with
  | .scanning (m :: left) =>
    some (if s.live leg.node m then (.scanning left, s.keysOf c m.unit) else (.refused, []))
  | _ => none

def finishLeg (c : Config) (leg : Leg) : Option (Phase × List Bytes) :=
  match leg.phase with
  | .scanning [] => some (if s.covered c leg.node then .ended else .refused, [])
  | _ => none

def failLeg (leg : Leg) : Option (Phase × List Bytes) :=
  if leg.phase = .ended then none else some (.refused, [])

def setLeg (agg : Aggregate) (i : Nat) (leg : Leg) (phase : Phase) (keys : List Bytes) : State :=
  let agg' := { agg with
    legs := agg.legs.set i { leg with phase }
    handed := agg.handed ++ keys }
  { s with aggregate := some agg' }

def stepLeg (i : Nat) (next : Leg → Option (Phase × List Bytes)) : Option State := do
  let agg ← s.aggregate
  let leg ← agg.legs[i]?
  let (phase, keys) ← next leg
  pure (s.setLeg agg i leg phase keys)

theorem of_stepLeg {s s' : State} {i : Nat} {next : Leg → Option (Phase × List Bytes)}
    (stepped : s.stepLeg i next = some s') :
    ∃ agg leg phase keys, s.aggregate = some agg ∧ agg.legs[i]? = some leg ∧
      next leg = some (phase, keys) ∧ s.setLeg agg i leg phase keys = s' := by
  obtain ⟨agg, running, rest⟩ := Option.bind_eq_some_iff.mp stepped
  obtain ⟨leg, found, rest⟩ := Option.bind_eq_some_iff.mp rest
  obtain ⟨⟨phase, keys⟩, moved, ended⟩ := Option.bind_eq_some_iff.mp rest
  exact ⟨agg, leg, phase, keys, running, found, moved, Option.some.inj ended⟩

end State

def step (c : Config) : Action → State → Option State
  | .see node seen, s => some (s.see node seen)
  | .reconcile node, s => some (s.reconcile c node)
  | .release node unit, s => if unit ∉ s.plan node then some (s.release node unit) else none
  | .acquire node unit, s =>
    if unit ∈ s.plan node ∧ (s.mounts node).all (fun m => m.unit != unit) = true then
      some (s.acquire node unit)
    else none
  | .evict node unit, s => some (s.evict node unit)
  | .put node key, s => if s.writable node (c.unitOf key) then some (s.put key) else none
  | .delete node key, s => if s.writable node (c.unitOf key) then some (s.delete key) else none
  | .call caller, s => if s.aggregate.isNone then some (s.call caller) else none
  | .check i, s => s.stepLeg i (s.checkLeg c)
  | .list i, s => s.stepLeg i s.listLeg
  | .scan i, s => s.stepLeg i (s.scanLeg c)
  | .finish i, s => s.stepLeg i (s.finishLeg c)
  | .fail i, s => s.stepLeg i State.failLeg

/-- One aggregate in a single-copy cluster. -/
def machine (c : Config) : Machine State Action := ⟨step c⟩

def Relies (c : Config) (s : State) (agg : Aggregate) (leg : Leg) (unit : GenUnit) : Prop :=
  leg.pending = true ∧ (∃ key ∈ agg.due, c.unitOf key = unit) ∧
    ∃ m ∈ s.mounts leg.node, m.unit = unit ∧ s.live leg.node m = true

instance (c : Config) (s : State) (agg : Aggregate) (leg : Leg) (unit : GenUnit) :
    Decidable (Relies c s agg leg unit) :=
  inferInstanceAs (Decidable (_ ∧ _ ∧ _))

/-- The call begins while the unit of every stored key is mounted, by a handle that is
neither fenced nor closed, on a member the caller knows; and no unit is opened, released or
evicted under a leg that relies on it. -/
def Settled (c : Config) (s : State) : Action → Prop
  | .call caller => ∀ key ∈ s.stored, ∃ node ∈ (s.seen caller).members,
      ∃ m ∈ s.mounts node, m.unit = c.unitOf key ∧ s.live node m = true
  | .acquire _ unit => ∀ agg ∈ s.aggregate, ∀ leg ∈ agg.legs, ¬ Relies c s agg leg unit
  | .release node unit | .evict node unit =>
    ∀ agg ∈ s.aggregate, ∀ leg ∈ agg.legs, leg.node = node → ¬ Relies c s agg leg unit
  | _ => True

instance (c : Config) : DecidableRel (Settled c) := fun _ action => by
  cases action <;> unfold Settled <;> infer_instance

variable {c : Config} {s s' : State}

def Leg.Serves (c : Config) (s : State) (key : Bytes) (leg : Leg) : Prop :=
  match leg.phase with
  | .waiting | .checked =>
    ∃ m ∈ s.mounts leg.node, m.unit = c.unitOf key ∧ s.live leg.node m = true
  | .scanning left => ∃ m ∈ left, m.unit = c.unitOf key
  | .ended => False
  | .refused => True

section Moves

variable {leg : Leg} {phase : Phase} {keys : List Bytes} {key : Bytes}

theorem serves_of_checkLeg (moved : s.checkLeg c leg = some (phase, keys)) (_ : key ∈ s.stored)
    (served : leg.Serves c s key) : key ∈ keys ∨ Leg.Serves c s key { leg with phase } := by
  obtain ⟨node, before⟩ := leg
  cases before <;>
  obtain ⟨rfl, rfl⟩ := moved
  refine Or.inr ?_
  by_cases covered : s.covered c node = true
  · rw [if_pos covered]
    exact served
  · rw [if_neg covered]
    trivial

theorem serves_of_listLeg (moved : s.listLeg leg = some (phase, keys)) (_ : key ∈ s.stored)
    (served : leg.Serves c s key) : key ∈ keys ∨ Leg.Serves c s key { leg with phase } := by
  obtain ⟨node, before⟩ := leg
  cases before <;>
  obtain ⟨rfl, rfl⟩ := moved
  obtain ⟨m, mounted, unit, _⟩ := served
  exact Or.inr ⟨m, mounted, unit⟩

theorem serves_of_scanLeg (moved : s.scanLeg c leg = some (phase, keys)) (present : key ∈ s.stored)
    (served : leg.Serves c s key) : key ∈ keys ∨ Leg.Serves c s key { leg with phase } := by
  obtain ⟨node, before⟩ := leg
  unfold State.scanLeg at moved
  split at moved
  case h_2 => cases moved
  case h_1 m left scanning =>
    subst scanning
    obtain ⟨first, listed, unit⟩ := served
    by_cases live : s.live node m = true
    · rw [if_pos live] at moved
      cases moved
      rcases mem_cons.mp listed with rfl | later
      · exact Or.inl (mem_filter.mpr ⟨present, by simp [unit]⟩)
      · exact Or.inr ⟨first, later, unit⟩
    · rw [if_neg live] at moved
      cases moved
      exact Or.inr trivial

theorem serves_of_finishLeg (moved : s.finishLeg c leg = some (phase, keys)) (_ : key ∈ s.stored)
    (served : leg.Serves c s key) : key ∈ keys ∨ Leg.Serves c s key { leg with phase } := by
  obtain ⟨node, before⟩ := leg
  unfold State.finishLeg at moved
  split at moved
  case h_2 => cases moved
  case h_1 exhausted =>
    subst exhausted
    obtain ⟨m, listed, _⟩ := served
    cases listed

theorem serves_of_failLeg (moved : State.failLeg leg = some (phase, keys)) (_ : key ∈ s.stored)
    (_ : leg.Serves c s key) : key ∈ keys ∨ Leg.Serves c s key { leg with phase } := by
  obtain ⟨_, ended⟩ := Option.ite_none_left_eq_some.mp moved
  cases ended
  exact Or.inr trivial

end Moves

def Inv (c : Config) (s : State) : Prop :=
  ∀ agg ∈ s.aggregate, ∀ key ∈ agg.due,
    key ∈ s.stored ∧ (key ∈ agg.handed ∨ ∃ leg ∈ agg.legs, leg.Serves c s key)

namespace Inv

theorem of_serves (inv : Inv c s) (aggregate : s'.aggregate = s.aggregate)
    (stored : s.stored ⊆ s'.stored)
    (serves : ∀ agg ∈ s.aggregate, ∀ key ∈ agg.due, ∀ leg ∈ agg.legs,
      leg.Serves c s key → leg.Serves c s' key) : Inv c s' := by
  intro agg running key due
  rw [aggregate] at running
  obtain ⟨present, handed | ⟨leg, mem, served⟩⟩ := inv agg running key due
  · exact ⟨stored present, Or.inl handed⟩
  · exact ⟨stored present, Or.inr ⟨leg, mem, serves agg running key due leg mem served⟩⟩

theorem serves_of_mounts {key : Bytes} {leg : Leg}
    (kept : leg.pending = true → ∀ m ∈ s.mounts leg.node, m.unit = c.unitOf key →
      s.live leg.node m = true → m ∈ s'.mounts leg.node ∧ s'.live leg.node m = true)
    (served : leg.Serves c s key) : leg.Serves c s' key := by
  obtain ⟨node, phase⟩ := leg
  cases phase with
  | waiting | checked =>
    obtain ⟨m, mem, unit, live⟩ := served
    obtain ⟨member', live'⟩ := kept rfl m mem unit live
    exact ⟨m, member', unit, live'⟩
  | scanning left => exact served
  | ended => exact served
  | refused => trivial

variable {node : Nat} {unit : GenUnit}

section

variable (inv : Inv c s)
include inv

theorem acquire (settled : Settled c s (.acquire node unit)) :
    Inv c (s.acquire node unit) := by
  refine inv.of_serves rfl (List.Subset.refl _) ?_
  intro agg running key due leg mem
  refine serves_of_mounts fun pending m mounted own live => ⟨?_, ?_⟩
  · by_cases same : leg.node = node
    · simp [State.acquire, ← same, mounted]
    · simpa [State.acquire, update_of_ne same] using mounted
  · have other : m.unit ≠ unit := by
      rintro rfl
      exact settled agg running leg mem ⟨pending, ⟨key, due, own.symm⟩, m, mounted, rfl, live⟩
    simpa [State.acquire, State.live, update_of_ne other] using live

theorem evict (settled : Settled c s (.evict node unit)) :
    Inv c (s.evict node unit) := by
  refine inv.of_serves rfl (List.Subset.refl _) ?_
  intro agg running key due leg mem
  refine serves_of_mounts fun pending m mounted own live => ⟨?_, live⟩
  by_cases same : leg.node = node
  · have other : m.unit ≠ unit := by
      rintro rfl
      exact settled agg running leg mem same
        ⟨pending, ⟨key, due, own.symm⟩, m, mounted, rfl, live⟩
    simp [State.evict, ← same, mounted, other]
  · simpa [State.evict, update_of_ne same] using mounted

theorem release (settled : Settled c s (.release node unit)) :
    Inv c (s.release node unit) := by
  refine (inv.evict settled).of_serves rfl (List.Subset.refl _) ?_
  intro agg running key due leg mem
  refine serves_of_mounts fun pending m mounted own live => ⟨mounted, ?_⟩
  have kept : (leg.node, m) ∉
      ((s.mounts node).filter fun m => m.unit == unit).map (Prod.mk node) := by
    intro closing
    obtain ⟨found, chosen, same⟩ := mem_map.mp closing
    cases same
    simp only [State.evict, update_self, mem_filter] at mounted
    simp_all
  simp only [State.live, Bool.and_eq_true, decide_eq_true_eq, Bool.not_eq_true',
    contains_eq_mem, decide_eq_false_iff_not] at live ⊢
  exact ⟨live.1, fun closing => (mem_append.mp closing).elim live.2 kept⟩

theorem put (key : Bytes) : Inv c (s.put key) :=
  inv.of_serves rfl (subset_append_left _ _) fun _ _ _ _ _ _ served => served

theorem delete (key : Bytes) : Inv c (s.delete key) := by
  intro agg running other due
  obtain ⟨before, running', rfl⟩ := Option.map_eq_some_iff.mp running
  obtain ⟨due', differs⟩ := mem_filter.mp due
  obtain ⟨present, served⟩ := inv before running' other due'
  exact ⟨mem_filter.mpr ⟨present, differs⟩, served⟩

end

theorem call {caller : Nat} (settled : Settled c s (.call caller)) : Inv c (s.call caller) := by
  intro agg running key due
  cases running
  obtain ⟨node, known, m, mounted, unit, live⟩ := settled key due
  refine ⟨due, Or.inr ⟨⟨node, .waiting⟩, mem_map.mpr ⟨node, known, rfl⟩, ?_⟩⟩
  exact ⟨m, mounted, unit, live⟩

theorem setLeg (inv : Inv c s) {agg : Aggregate} {i : Nat} {leg : Leg} {phase : Phase}
    {keys : List Bytes} (running : s.aggregate = some agg) (found : agg.legs[i]? = some leg)
    (moved : ∀ key ∈ agg.due, key ∈ s.stored → leg.Serves c s key →
      key ∈ keys ∨ Leg.Serves c s key { leg with phase }) :
    Inv c (s.setLeg agg i leg phase keys) := by
  intro after running' key due
  cases running'
  obtain ⟨present, served⟩ := inv agg running key due
  refine ⟨present, ?_⟩
  obtain ⟨inRange, at_i⟩ := List.getElem?_eq_some_iff.mp found
  rcases served with handed | ⟨other, mem, serves⟩
  · exact Or.inl (mem_append_left _ handed)
  · by_cases same : other = leg
    · subst same
      rcases moved key due present serves with handed | serves'
      · exact Or.inl (mem_append_right _ handed)
      · exact Or.inr ⟨_, mem_set inRange _, serves'⟩
    · -- a leg that differs from the one moved stays in the list
      obtain ⟨j, below, at_j⟩ := mem_iff_getElem.mp mem
      refine Or.inr ⟨other, mem_iff_getElem.mpr ⟨j, by simpa using below, ?_⟩, serves⟩
      rw [getElem_set_of_ne, at_j]
      rintro rfl
      exact same (at_j.symm.trans at_i)

theorem stepLeg (inv : Inv c s) {i : Nat} {next : Leg → Option (Phase × List Bytes)}
    (stepped : s.stepLeg i next = some s')
    (moved : ∀ {leg phase keys key}, next leg = some (phase, keys) → key ∈ s.stored →
      leg.Serves c s key → key ∈ keys ∨ Leg.Serves c s key { leg with phase }) : Inv c s' := by
  obtain ⟨agg, leg, phase, keys, running, found, entered, rfl⟩ := State.of_stepLeg stepped
  exact inv.setLeg running found fun key _ => moved entered

theorem step (inv : Inv c s) {action : Action} (settled : Settled c s action)
    (stepped : (machine c).step action s = some s') : Inv c s' := by
  cases action with
  | see node seen | reconcile node =>
    cases stepped
    exact inv.of_serves rfl (List.Subset.refl _) fun _ _ _ _ _ _ served => served
  | release node unit =>
    obtain ⟨_, rfl⟩ := of_guard stepped
    exact inv.release settled
  | acquire node unit =>
    obtain ⟨_, rfl⟩ := of_guard stepped
    exact inv.acquire settled
  | evict node unit =>
    cases stepped
    exact inv.evict settled
  | put node key =>
    obtain ⟨_, rfl⟩ := of_guard stepped
    exact inv.put key
  | delete node key =>
    obtain ⟨_, rfl⟩ := of_guard stepped
    exact inv.delete key
  | call caller =>
    obtain ⟨_, rfl⟩ := of_guard stepped
    exact call settled
  | check i => exact inv.stepLeg stepped serves_of_checkLeg
  | list i => exact inv.stepLeg stepped serves_of_listLeg
  | scan i => exact inv.stepLeg stepped serves_of_scanLeg
  | finish i => exact inv.stepLeg stepped serves_of_finishLeg
  | fail i => exact inv.stepLeg stepped serves_of_failLeg

theorem of_reaches {seen : Nat → NodeView}
    (reached : (machine c).Reaches (Settled c) (.initial seen) s) : Inv c s :=
  reached.invariant (fun _ running => by cases running) fun inv settled stepped =>
    inv.step settled stepped

end Inv

/-- **In every settled run, an aggregate whose legs have all ended cleanly has been handed
every key that was stored when it began and has not been deleted since.** -/
theorem aggregate_is_complete {c : Config} {seen : Nat → NodeView} {s : State} {agg : Aggregate}
    (reached : (machine c).Reaches (Settled c) (.initial seen) s)
    (running : s.aggregate = some agg) (clean : ∀ leg ∈ agg.legs, leg.phase = .ended) :
    ∀ key ∈ agg.due, key ∈ agg.handed := by
  intro key due
  obtain ⟨_, handed | ⟨leg, member, served⟩⟩ := Inv.of_reaches reached agg running key due
  · exact handed
  · have ended := clean leg member
    simp only [Leg.Serves, ended] at served

def oneUnit : Config := ⟨0, .one, fun _ => 0⟩

def ownedBy (owner : Nat) : NodeView where
  placement :=
    { self := 0, r := 1, gs := .steady 0 .one, joining := [], draining := []
      locate := fun _ _ => [owner] }
  members := [1, 2]

/-- Node 1 mounts the unit, stores a key and calls `Aggregate`. -/
def called : List Action := [.reconcile 1, .acquire 1 ⟨0, 0⟩, .put 1 [7], .call 1]

/-- The unit moves from node 1 to node 2. -/
def handOff : List Action :=
  [.see 1 (ownedBy 2), .see 2 (ownedBy 2), .reconcile 1, .release 1 ⟨0, 0⟩, .reconcile 2,
    .acquire 2 ⟨0, 0⟩]

def movedAfterScan : List Action :=
  called ++ [.check 0, .list 0, .scan 0] ++ handOff ++
    [.finish 0, .check 1, .list 1, .scan 1, .finish 1]

theorem moved_unit_is_handed_twice :
    ∃ s agg, (machine oneUnit).Reaches (Settled oneUnit) (.initial fun _ => ownedBy 1) s ∧
      s.aggregate = some agg ∧ agg.due = [[7]] ∧ agg.handed = [[7], [7]] ∧
      ∀ key ∈ agg.due, key ∈ agg.handed := by
  have reached := reaches_endOf (machine oneUnit) (Settled oneUnit) movedAfterScan
    (.initial fun _ => ownedBy 1) (by decide)
  let agg : Aggregate := ⟨[⟨1, .ended⟩, ⟨2, .ended⟩], [[7]], [[7], [7]]⟩
  refine ⟨_, agg, reached, by decide, rfl, rfl, ?_⟩
  exact aggregate_is_complete reached (by decide) (by decide)

/-- The leg of node 2 ends before the unit reaches that node, and the leg of node 1 begins
after the unit has left it: each node covers what it desires at its own time. -/
def movedBetweenLegs : List Action :=
  called ++ [.check 1, .list 1, .finish 1] ++ handOff ++ [.check 0, .list 0, .finish 0]

/-- A unit that moves between two legs is served by neither, and no leg reports an error. -/
theorem clean_aggregate_misses_key :
    ∃ s, (machine oneUnit).Reaches anyAction (.initial fun _ => ownedBy 1) s ∧
      s.aggregate = some ⟨[⟨1, .ended⟩, ⟨2, .ended⟩], [[7]], []⟩ :=
  exists_reaches_of_run _ _ movedBetweenLegs _ _ (by decide)

end Shale.Scan
