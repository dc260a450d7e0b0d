import Shale.Foundation.Threads
import Shale.Handoff.Reconcile

/-!
# Reconcilers, acquires and routed operations of many nodes

Nodes share the durable epoch and the serving marker of each position. On every node there are
the holder of `reconcileMu`, which runs reconcile passes and drain polls, one background acquire
for each position, any number of prompt acquires and any number of routed operations that may
evict a mount. A node's two sets may be different in every pass.

Each of them works through errands, one position after the other. An errand is one access to the
mount table, to the recorded open epochs or to the store, and says which one comes next, so that
everything that is read outside the table's lock may be out of date when it is used.

`Cell.served` and `Cell.marks` are records of the model only: the serving mounts that have been
completed, and the markers that have been written.
-/

namespace Shale.Handoff

inductive Worker where
  | reconciler
  | acquire (ru : ReplicaUnit)
  | prompt (n : Nat)
  | op (n : Nat)
deriving DecidableEq

/-- Where a goroutine is in its work at one position. -/
inductive Errand where
  /- The reclaim round. -/
  | reclaim
  | reclaiming
  /- The drain round: `beginDrain`. -/
  | drain
  | gate
  | gateDurable
  | arm (gateEpoch : Nat)
  /- The drain round: a position in neither set. -/
  | leave (elsewhere : Bool)
  | place
  | own
  | ownDurable
  | judge (ownEpoch : Nat)
  | unmount (ownEpoch : Option Nat)
  | forget
  | close
  /- The acquire rounds. -/
  | flip
  | flipEpoch
  | flipOwn
  | flipDurable
  | publish (epoch : Nat)
  | acquire
  | mark
  | start
  /- `drainCheck`. -/
  | check
  | orphan (gateEpoch : Nat)
  | poll (gateEpoch : Nat)
  | release
  /- `promptAcquireFreshPositions`. -/
  | fresh
  | unmarked
  /- The background acquire. -/
  | opening
  | reclose
  | reopening
  | redrive
  | install (opened : Nat)
  | discard
  | announce (opened : Nat)
  | finish
  /- A routed operation on a backend that has failed. -/
  | evict (failed : Nat)
deriving DecidableEq

/-- What a goroutine may meet. -/
inductive Event where
  | go
  /-- An access to the store fails; a failed open may still have fenced the position. -/
  | fail (fenced : Bool)
  | view (gs : GenState) (replicas : GenUnit → Nat)
  | reconcile (current pending order : List ReplicaUnit)
  | poll (order : List ReplicaUnit)
  | desire (positions : List ReplicaUnit)
  | fetch (ru : ReplicaUnit)

namespace Errand

def openAt (refused : Errand) (p : Place) : Place × Option Errand :=
  match p.openUnit acquireBaseEpoch with
  | some (opened, p') => (p', some (.install opened))
  | none => (p, some refused)

def openFailed (fenced : Bool) (p : Place) : Place :=
  if fenced then { p with durable := p.durable + 1 } else p

def step (closed : Bool) (ru : ReplicaUnit) (p : Place) :
    Errand → Event → Option (Place × Option Errand)
  | .reclaim, .go => some (p, if p.slot.loser then some .reclaiming else none)
  | .reclaiming, .go => some (reclaimDrainingPosition p, none)
  | .drain, .go => some (p, if p.slot.phase = none then some .gate else none)
  | .gate, .go =>
    match p.slot.openEpoch with
    | some e => some (p, some (.arm e))
    | none => some (p, some .gateDurable)
  | .gateDurable, .go => some (p, some (.arm p.durable))
  | .gateDurable, .fail _ => some (p, some (.arm 0))
  | .arm gateEpoch, .go =>
    match p.slot.armDrain gateEpoch with
    | some slot => some ({ p with slot }, none)
    | none => some (p, none)
  | .leave elsewhere, .go =>
    some (p, if p.slot.phase ≠ none ∨ elsewhere then none else some .place)
  | .place, .view gs replicas =>
    some (p, some (if placed ru gs replicas then .own else .unmount none))
  | .own, .go =>
    match p.slot.openEpoch with
    | some e => some (p, some (.judge e))
    | none => some (p, some .ownDurable)
  | .ownDurable, .go => some (p, some (.judge p.durable))
  | .ownDurable, .fail _ => some (p, some (.judge 0))
  | .judge ownEpoch, .go =>
    match p.marker with
    | none => some (p, some (.unmount (some ownEpoch)))
    | some epoch => some (p, if epoch ≤ ownEpoch then none else some (.unmount (some ownEpoch)))
  | .judge _, .fail _ => some (p, none)
  | .unmount _, .go => some ({ p with slot := p.slot.unmount }, some .forget)
  | .forget, .go => some ({ p with slot := p.slot.forgetOpenEpoch }, some .close)
  | .close, .go => some (p.closeUnit, none)
  | .flip, .go =>
    match p.slot.dropStuckGainerPhase with
    | some slot => some ({ p with slot }, some .flipEpoch)
    | none => some (p, none)
  | .flipEpoch, .go =>
    let epoch := p.slot.openEpoch.getD 0
    some (p, some (if epoch = 0 then .flipOwn else .publish epoch))
  | .flipOwn, .go =>
    match p.slot.openEpoch with
    | some e => some (p, some (.publish e))
    | none => some (p, some .flipDurable)
  | .flipDurable, .go => some (p, some (.publish p.durable))
  | .flipDurable, .fail _ => some (p, some (.publish 0))
  | .publish epoch, .go => some (p.writeServingMarker epoch, none)
  | .publish _, .fail _ => some (p, none)
  | .acquire, .go =>
    some (p, if p.slot.loser then none else if p.slot.gainer then some .start else some .mark)
  | .mark, .go => some (beginAcquire p, some .start)
  | .start, .go =>
    match p.slot.startAcquire closed with
    | some slot => some ({ p with slot }, none)
    | none => some (p, none)
  | .check, .go =>
    match p.slot.phase with
    | some ⟨.draining, gateEpoch⟩ => some (p, some (.orphan gateEpoch))
    | _ => some (p, none)
  | .orphan gateEpoch, .go =>
    match p.slot.clearOrphanedDrain with
    | some slot => some ({ p with slot }, none)
    | none => some (p, some (.poll gateEpoch))
  | .poll gateEpoch, .go =>
    let ready := p.marker.any fun epoch => gateEpoch < epoch
    some (p, if releasable ⟨.draining, gateEpoch⟩ ready then some .release else none)
  | .poll _, .fail _ => some (p, none)
  | .release, .go =>
    some ({ p with slot := p.slot.releaseDrained.2 },
      if p.slot.releaseDrained.1 then some .close else none)
  | .fresh, .go => some (p, if p.slot.mount = none then some .unmarked else none)
  | .unmarked, .go =>
    some (p, if p.marker.any fun epoch => 0 < epoch then none else some .start)
  | .unmarked, .fail _ => some (p, none)
  | .opening, .go => some (openAt .reclose p)
  | .opening, .fail fenced => some (openFailed fenced p, some .reclose)
  | .reclose, .go => some (p.closeUnit, some .reopening)
  | .reopening, .go => some (openAt .redrive p)
  | .reopening, .fail fenced => some (openFailed fenced p, some .redrive)
  -- the backoff has another attempt left, or it has not
  | .redrive, .go => some (p, some .opening)
  | .redrive, .fail _ => some (p, some .finish)
  | .install opened, .go =>
    let (out, slot) := p.slot.installServing closed opened
    some ({ p with slot }, some (if out.mounted then .announce opened else .discard))
  | .discard, .go => some (p.closeUnit, some .finish)
  -- no open returns epoch 0, which the publisher would resolve first
  | .announce opened, .go => some (p.writeServingMarker opened, some .finish)
  | .announce _, .fail _ => some (p, some .finish)
  | .finish, .go => some ({ p with slot := p.slot.finishAcquire }, none)
  | .evict failed, .go => some ({ p with slot := p.slot.evictIfSame failed }, none)
  | _, _ => none

end Errand

/-- What the nodes have of one position. -/
structure Cell where
  slots : Nat → Slot
  handles : Nat → Option Nat
  durable : Nat
  marker : Option Nat
  served : List (Nat × Nat)
  marks : List (Nat × Nat)

namespace Cell

def empty : Cell := ⟨fun _ => .empty, fun _ => none, 0, none, [], []⟩

def place (node : Nat) (c : Cell) : Place := ⟨c.slots node, c.handles node, c.durable, c.marker⟩

def put (node : Nat) (p : Place) (c : Cell) : Cell :=
  { c with
    slots := Function.update c.slots node p.slot
    handles := Function.update c.handles node p.handle
    durable := p.durable
    marker := p.marker }

def logServed (node : Nat) (errand : Errand) (next : Option Errand) (c : Cell) : Cell :=
  match errand, next with
  | .install opened, some (.announce _) => { c with served := (node, opened) :: c.served }
  | _, _ => c

def logMarks (node : Nat) (errand : Errand) (event : Event) (c : Cell) : Cell :=
  match errand, event with
  | .publish epoch, .go => { c with marks := (node, epoch) :: c.marks }
  | .announce opened, .go => { c with marks := (node, opened) :: c.marks }
  | _, _ => c

def after (node : Nat) (errand : Errand) (event : Event) (p : Place) (next : Option Errand)
    (c : Cell) : Cell :=
  ((c.put node p).logServed node errand next).logMarks node errand event

end Cell

inductive Phase where
  | idle
  | running (ru : ReplicaUnit) (errand : Errand) (rest : List (ReplicaUnit × Errand))
deriving DecidableEq

namespace Phase

def ofErrands : List (ReplicaUnit × Errand) → Phase
  | [] => .idle
  | (ru, errand) :: rest => .running ru errand rest

def next (ru : ReplicaUnit) (errand : Option Errand) (rest : List (ReplicaUnit × Errand)) : Phase :=
  match errand with
  | some errand => .running ru errand rest
  | none => .ofErrands rest

end Phase

section Pass

variable (pass : Pass) (ru : ReplicaUnit)

def reclaimErrand : Option Errand :=
  if ru ∈ pass.current ∧ ru ∈ pass.pending then some .reclaim else none

def drainErrand : Option Errand :=
  if ru ∈ pass.current then
    if ru ∈ pass.pending then none else some .drain
  else if ru ∈ pass.pending then none
  else some (.leave (desiresUnitElsewhereUnmounted pass ru))

def acquireErrand : Errand := if pass.mountedSet ru then .flip else .acquire

def pendingErrand : Option Errand :=
  if ru ∈ pass.current then none else some (acquireErrand pass ru)

def currentErrand : Option Errand :=
  if ru ∉ pass.pending then none else some (acquireErrand pass ru)

end Pass

def round (errand : ReplicaUnit → Option Errand) (keys : List ReplicaUnit) :
    List (ReplicaUnit × Errand) :=
  keys.filterMap fun ru => (errand ru).map fun errand => (ru, errand)

def passErrands (pass : Pass) (order : List ReplicaUnit) : List (ReplicaUnit × Errand) :=
  let mounted := order.filter pass.mountedSet
  round (reclaimErrand pass) mounted ++ round (drainErrand pass) mounted ++
    round (pendingErrand pass) pass.pending ++ round (currentErrand pass) pass.current

def takeUp (node : Nat) (cells : ReplicaUnit → Cell) :
    Worker → Event → Option (List (ReplicaUnit × Errand))
  | .reconciler, .reconcile current pending order =>
    let pass := snapshot current pending fun ru => (cells ru).place node
    some (passErrands pass order)
  | .reconciler, .poll order =>
    let draining := order.filter fun ru =>
      ((cells ru).slots node).phase.any fun st => st.phase = .draining
    some (draining.map fun ru => (ru, .check))
  -- the goroutine is spawned by the one that has set the in-flight entry
  | .acquire ru, .go => if ((cells ru).slots node).inFlight then some [(ru, .opening)] else none
  | .prompt _, .desire positions => some (positions.map fun ru => (ru, .fresh))
  | .op _, .fetch ru => ((cells ru).slots node).mount.map fun mounted => [(ru, .evict mounted)]
  | _, _ => none

abbrev State := Threads (ReplicaUnit → Cell) (Nat × Worker) Phase

def program (closed : Nat → Bool) :
    Threads.Program (ReplicaUnit → Cell) (Nat × Worker) Event Phase := fun name event s =>
  match s.phase name with
  | .idle =>
    (takeUp name.1 s.object name.2 event).map fun errands => (s.object, .ofErrands errands)
  | .running ru errand rest =>
    let cell := s.object ru
    (errand.step (closed name.1) ru (cell.place name.1) event).map fun (p, next) =>
      (Function.update s.object ru (cell.after name.1 errand event p next), .next ru next rest)

def machine (closed : Nat → Bool) : Machine State ((Nat × Worker) × Event) :=
  Threads.machine (program closed)

def initial : State := ⟨fun _ => .empty, fun _ => .idle⟩

namespace Cell

variable {node other : Nat} {errand : Errand} {event : Event} {p : Place} {next : Option Errand}
  {c : Cell}

theorem after_eq (node : Nat) (errand : Errand) (event : Event) (p : Place)
    (next : Option Errand) (c : Cell) :
    ∃ served marks, c.after node errand event p next =
      { c.put node p with served := served, marks := marks } := by
  unfold after logMarks logServed
  split <;> split <;> exact ⟨_, _, rfl⟩

@[simp] theorem slots_after_self : (c.after node errand event p next).slots node = p.slot := by
  obtain ⟨served, marks, same⟩ := after_eq node errand event p next c
  simp [same, put]

@[simp] theorem slots_after_of_ne (apart : other ≠ node) :
    (c.after node errand event p next).slots other = c.slots other := by
  obtain ⟨served, marks, same⟩ := after_eq node errand event p next c
  simp [same, put, apart]

@[simp] theorem durable_after : (c.after node errand event p next).durable = p.durable := by
  obtain ⟨served, marks, same⟩ := after_eq node errand event p next c
  simp [same, put]

@[simp] theorem marker_after : (c.after node errand event p next).marker = p.marker := by
  obtain ⟨served, marks, same⟩ := after_eq node errand event p next c
  simp [same, put]

end Cell

def places (node : Nat) (s : State) : ReplicaUnit → Place := fun ru => (s.object ru).place node

def acquires (node : Nat) (write : Event) : List ((Nat × Worker) × Event) :=
  List.flatten
    [[((node, .reconciler), .reconcile [position 0] [position 0] [])],
      List.replicate 3 ((node, .reconciler), .go),
      List.replicate 3 ((node, .acquire (position 0)), .go),
      [((node, .acquire (position 0)), write), ((node, .acquire (position 0)), .go)]]

def Finds (condition : Errand → Event → Place → Bool) (s : State)
    (action : (Nat × Worker) × Event) : Prop :=
  (match s.phase action.1 with
  | .idle => true
  | .running ru errand _ => condition errand action.2 (places action.1.1 s ru)) = true

instance (condition : Errand → Event → Place → Bool) : DecidableRel (Finds condition) :=
  fun _ _ => inferInstanceAs (Decidable (_ = true))

theorem Finds.running {condition : Errand → Event → Place → Bool} {s : State}
    {name : Nat × Worker} {event : Event} {ru : ReplicaUnit} {errand : Errand}
    {rest : List (ReplicaUnit × Errand)} (finds : Finds condition s (name, event))
    (running : s.phase name = .running ru errand rest) :
    condition errand event (places name.1 s ru) = true := by
  simpa only [Finds, running] using finds

end Shale.Handoff
