import Shale.Reshard.Arbiter
import Shale.Reshard.InitMarker
import Shale.Storage.Generation

/-!
# How nodes boot and follow the arbiter

`pkg/cluster`: any number of nodes open against one conditional store and then tick
`observeReshard` whenever their reconcile loops run. A node founds the cluster or adopts the
generation of the `__cluster/init` marker, waits while a reshard is in flight, and seeds the
arbiter. Every tick reads the arbiter once and drives the node's generation one step towards
the agreed count.

The marker and the arbiter are the atomic objects that their calls refine, the arbiter with
epochs that do not wrap. The steps of different nodes interleave freely; which parent slots a
node has mounted and whether a copy comes out clean are choices of the run. A node may stop at
any moment and boot again.
-/

namespace Shale.NodeLoop

open Machine

open Arbiter (Plan planNext)
open InitMarker (Marker)

def reshardGenStep (gs : GenState) (agreed : Arbiter.State Nat) : GenState × Bool :=
  match gs.nextCount with
  | some next => if gs.allCutOver then (gs.advance next, true) else (gs, false)
  | none =>
    if gs.count.n < agreed.count.n then
      match gs.count.double with
      | .error _ => (gs, false)
      | .ok next => (gs.enter next, true)
    else if agreed.count.n < gs.count.n then
      match gs.count.halve with
      | .error _ => (gs, false)
      | .ok next => (gs.enter next, true)
    else (gs, false)

def shouldAdvanceArbiter (gs : GenState) (agreed : Arbiter.State Nat) : Bool :=
  gs.nextCount.isNone && gs.count.n == agreed.count.n && agreed.count.n != agreed.target.n

def steadyFor (count : UnitCount) : Option (Arbiter.State Nat) → Bool
  | none => true
  | some agreed => agreed.count.n == count.n && agreed.count.n == agreed.target.n

/-- How far a tick of `observeReshard` has come. -/
inductive Stage where
  | observe
  | drive
  | reobserve
  | finalize
  | retire
  | advance
deriving DecidableEq

structure Tick where
  agreed : Arbiter.State Nat
  stage : Stage
deriving DecidableEq

/-- What a node is doing: it is down, it reads the arbiter before it adopts a generation, it
waits to read the marker again, it is about to seed the arbiter, or it has opened. -/
inductive Phase where
  | down
  | deferring (gen : Nat) (count : UnitCount)
  | waiting (gen : Nat) (count : UnitCount)
  | seeding (gs : GenState)
  | serving (gs : GenState) (tick : Option Tick)
deriving DecidableEq

structure Node where
  unitCount : UnitCount
  phase : Phase
deriving DecidableEq

structure State where
  marker : Option Marker
  arbiter : Option (Arbiter.State Nat)
  caughtUp : Finset (GenUnit × Nat)
  cutOver : Finset GenUnit
  nodes : List Node

def initial (unitCounts : List UnitCount) : State where
  marker := none
  arbiter := none
  caughtUp := ∅
  cutOver := ∅
  nodes := unitCounts.map fun unitCount => ⟨unitCount, .down⟩

/-- The steps. In `deferRead` and `reread` the store may fail to answer (`reads`) and the
deferral's budget may be spent; `retarget` and `advance` are calls from outside the loop. -/
inductive Action where
  | boot (n : Nat)
  | deferRead (n : Nat) (reads spent : Bool)
  | reread (n : Nat) (reads : Bool)
  | seed (n : Nat)
  | crash (n : Nat)
  | retarget (target : UnitCount)
  | advance
  | read (n : Nat)
  | observe (n k : Nat)
  | drive (n k slot : Nat)
  | cut (n k : Nat)
  | next (n : Nat)
  | advanceMarker (n : Nat)
  | commit (n : Nat)
  | advanceArbiter (n : Nat)
  | endTick (n : Nat)

namespace State

def setPhase (s : State) (n : Nat) (node : Node) (phase : Phase) : State :=
  { s with nodes := s.nodes.set n { node with phase } }

def allSlotsCaughtUp (s : State) (r gen k : Nat) : Bool :=
  decide (∀ slot < r, (⟨gen, k⟩, slot) ∈ s.caughtUp)

def bootstrapViaMarker (s : State) (unitCount : UnitCount) : State × Marker × Bool :=
  match s.marker with
  | some m => (s, m, false)
  | none => ({ s with marker := some ⟨0, unitCount⟩ }, ⟨0, unitCount⟩, true)

def advanceClusterInitMarker (s : State) (newGen : Nat) (newCount : UnitCount) : State :=
  { s with marker := (InitMarker.atomic.step (.advance newGen newCount) s.marker).getD s.marker }

def seedArbiter (s : State) (unitCount : UnitCount) : State :=
  { s with arbiter := (Arbiter.atomic.step (.seed unitCount) s.arbiter).getD s.arbiter }

def advanceArbiter (s : State) : State :=
  { s with arbiter := (Arbiter.atomic.step .advance s.arbiter).getD s.arbiter }

end State

def startTick (r : Nat) (gs : GenState) (agreed : Arbiter.State Nat) : GenState × Option Tick :=
  match gs.nextCount with
  | some _ => (gs, some ⟨agreed, .observe⟩)
  | none =>
    if r ≤ 1 ∧ agreed.count.n < gs.count.n then (gs, none)
    else
      let next := (reshardGenStep gs agreed).1
      (next, some ⟨agreed, if next.nextCount.isSome then .observe else .advance⟩)

def Stage.polls : Stage → Bool
  | .observe | .reobserve => true
  | .drive | .finalize | .retire | .advance => false

/-- The cut-over markers that a driving node publishes for old unit `k`: with one replica it
bisects the unit and flips it at once, a split waits for all slots of the unit, and a merge for
those of both parents of the survivor. -/
def cutOverOf (r : Nat) (s : State) (gs : GenState) (next : UnitCount) (k : Nat) :
    Option (Finset GenUnit × GenState) :=
  if r ≤ 1 then
    if ⟨gs.gen, k⟩ ∈ s.cutOver then none else some ({⟨gs.gen, k⟩}, gs.cutOverUnit k)
  else if gs.count.n < next.n then
    if s.allSlotsCaughtUp r gs.gen k then some ({⟨gs.gen, k⟩}, gs) else none
  else
    match parentUnit k gs.count with
    | .error _ => none
    | .ok survivor =>
      match childUnits survivor next with
      | .error _ => none
      | .ok (low, high) =>
        if s.allSlotsCaughtUp r gs.gen low && s.allSlotsCaughtUp r gs.gen high then
          some ({⟨gs.gen, low⟩, ⟨gs.gen, high⟩}, gs)
        else none

def tickStep (r : Nat) (s : State) (n : Nat) (node : Node) (gs : GenState) (tick : Tick) :
    Action → Option State
  | .observe _ k =>
    if tick.stage.polls ∧ k < gs.count.n ∧ ⟨gs.gen, k⟩ ∈ s.cutOver then
      some (s.setPhase n node (.serving (gs.cutOverUnit k) (some tick)))
    else none
  | .drive _ k slot =>
    if tick.stage = .drive ∧ 1 < r ∧ k < gs.count.n ∧ slot < r ∧ ¬ gs.hasCutOver k then
      some ({ s with caughtUp := insert (GenUnit.mk gs.gen k, slot) s.caughtUp }.setPhase n node
        (.serving gs (some tick)))
    else none
  | .cut _ k =>
    match gs.nextCount with
    | none => none
    | some next =>
      if tick.stage = .drive ∧ k < gs.count.n ∧ ¬ gs.hasCutOver k then
        (cutOverOf r s gs next k).map fun (flipped, gs) =>
          { s with cutOver := flipped ∪ s.cutOver }.setPhase n node (.serving gs (some tick))
      else none
  | .next _ =>
    match tick.stage with
    | .observe => some (s.setPhase n node (.serving gs (some { tick with stage := .drive })))
    | .drive => some (s.setPhase n node (.serving gs (some { tick with stage := .reobserve })))
    | .reobserve =>
      if gs.allCutOver then
        some (s.setPhase n node (.serving gs (some { tick with stage := .finalize })))
      else none
    | .finalize | .retire | .advance => none
  | .advanceMarker _ =>
    match gs.nextCount with
    | none => none
    | some next =>
      if tick.stage = .finalize then
        some ((s.advanceClusterInitMarker (gs.gen + 1) next).setPhase n node
          (.serving gs (some { tick with stage := .retire })))
      else none
  | .commit _ =>
    match gs.nextCount with
    | none => none
    | some next =>
      if tick.stage = .retire then
        some (s.setPhase n node
          (.serving (gs.advance next) (some { tick with stage := .advance })))
      else none
  | .advanceArbiter _ =>
    if tick.stage = .advance ∧ shouldAdvanceArbiter gs tick.agreed ∧
        ¬ (r ≤ 1 ∧ tick.agreed.target.n < gs.count.n) then
      some (s.advanceArbiter.setPhase n node (.serving gs none))
    else none
  | .endTick _ => some (s.setPhase n node (.serving gs none))
  | _ => none

def nodeStep (r : Nat) (s : State) (n : Nat) (node : Node) (action : Action) : Option State :=
  match action, node.phase with
  | .boot _, .down =>
    match s.bootstrapViaMarker node.unitCount with
    | (s, m, true) => some (s.setPhase n node (.seeding (.steady m.gen m.count)))
    | (s, m, false) => some (s.setPhase n node (.deferring m.gen m.count))
  | .deferRead _ reads spent, .deferring gen count =>
    if !reads || steadyFor count s.arbiter || spent then
      some (s.setPhase n node (.seeding (.steady gen count)))
    else some (s.setPhase n node (.waiting gen count))
  | .reread _ reads, .waiting gen count =>
    if reads then
      match s.bootstrapViaMarker node.unitCount with
      | (s, m, _) => some (s.setPhase n node (.deferring m.gen m.count))
    else some (s.setPhase n node (.deferring gen count))
  | .seed _, .seeding gs =>
    some ((s.seedArbiter node.unitCount).setPhase n node (.serving gs none))
  | .crash _, _ => some (s.setPhase n node .down)
  | .read _, .serving gs none =>
    s.arbiter.map fun agreed =>
      s.setPhase n node (.serving (startTick r gs agreed).1 (startTick r gs agreed).2)
  | action, .serving gs (some tick) => tickStep r s n node gs tick action
  | _, _ => none

def Action.node? : Action → Option Nat
  | .retarget _ | .advance => none
  | .boot n | .deferRead n _ _ | .reread n _ | .seed n | .crash n | .read n | .observe n _
  | .drive n _ _ | .cut n _ | .next n | .advanceMarker n | .commit n | .advanceArbiter n
  | .endTick n => some n

def step (r : Nat) (action : Action) (s : State) : Option State :=
  match action, action.node? with
  | .retarget target, _ =>
    (Arbiter.atomic.step (.retarget target) s.arbiter).map fun arbiter => { s with arbiter }
  | .advance, _ => (Arbiter.atomic.step .advance s.arbiter).map fun arbiter => { s with arbiter }
  | action, some n => s.nodes[n]?.bind fun node => nodeStep r s n node action
  | _, none => none

def machine (r : Nat) : Machine State Action := ⟨step r⟩

variable {r : Nat} {s s' : State} {action : Action} {n : Nat} {node : Node}

/-- How a node that is in a tick may move its routing state: it stays, a unit cuts over, or the
next generation becomes the live one. -/
inductive Drives (gs : GenState) : GenState → Prop where
  | stays : Drives gs gs
  | flips (k : Nat) : Drives gs (gs.cutOverUnit k)
  | commits {next : UnitCount} (moving : gs.nextCount = some next) : Drives gs (gs.advance next)

inductive Effect (r : Nat) (s : State) (node : Node) :
    Action → Phase → Option Marker → Option (Arbiter.State Nat) → Prop where
  | founds {action : Action} {phase : Phase} (absent : s.marker = none)
      (opens : phase = .seeding (.steady 0 node.unitCount) ∨ phase = .deferring 0 node.unitCount) :
      Effect r s node action phase (some ⟨0, node.unitCount⟩) s.arbiter
  | adopts {action : Action} {m : Marker} (stored : s.marker = some m) :
      Effect r s node action (.deferring m.gen m.count) s.marker s.arbiter
  | defers {action : Action} {gen : Nat} {count : UnitCount} {phase : Phase}
      (defers : node.phase = .deferring gen count ∨ node.phase = .waiting gen count)
      (opens : phase = .seeding (.steady gen count) ∨ phase = .waiting gen count ∨
        phase = .deferring gen count) :
      Effect r s node action phase s.marker s.arbiter
  | seeds {n : Nat} {gs : GenState} (seeding : node.phase = .seeding gs) :
      Effect r s node (.seed n) (.serving gs none) s.marker
        (s.seedArbiter node.unitCount).arbiter
  | crashes {action : Action} : Effect r s node action .down s.marker s.arbiter
  | reads {n : Nat} {gs : GenState} {agreed : Arbiter.State Nat}
      (serving : node.phase = .serving gs none) (present : s.arbiter = some agreed) :
      Effect r s node (.read n) (.serving (startTick r gs agreed).1 (startTick r gs agreed).2)
        s.marker s.arbiter
  | drives {action : Action} {gs gs' : GenState} {tick : Tick} {later : Option Tick}
      (serving : node.phase = .serving gs (some tick)) (drives : Drives gs gs') :
      Effect r s node action (.serving gs' later) s.marker s.arbiter
  | marks {action : Action} {gs : GenState} {tick : Tick} {later : Option Tick}
      {next : UnitCount} (serving : node.phase = .serving gs (some tick))
      (moving : gs.nextCount = some next) :
      Effect r s node action (.serving gs later)
        (s.advanceClusterInitMarker (gs.gen + 1) next).marker s.arbiter
  | advances {n : Nat} {gs : GenState} {tick : Tick}
      (serving : node.phase = .serving gs (some tick)) :
      Effect r s node (.advanceArbiter n) (.serving gs none) s.marker s.advanceArbiter.arbiter

theorem drives_of_cutOverOf {gs gs' : GenState} {next : UnitCount} {k : Nat}
    {flipped : Finset GenUnit} (published : cutOverOf r s gs next k = some (flipped, gs')) :
    Drives gs gs' := by
  unfold cutOverOf at published
  split at published
  · split at published
    · cases published
    · cases Option.some.inj published
      exact .flips k
  · split at published
    · obtain ⟨-, rfl⟩ := Prod.mk.inj (of_guard published).2
      exact .stays
    · split at published
      · cases published
      · split at published
        · cases published
        · obtain ⟨-, rfl⟩ := Prod.mk.inj (of_guard published).2
          exact .stays

def State.Leaves (s' s : State) (n : Nat) (node : Node) (phase : Phase) : Prop :=
  s'.nodes = s.nodes.set n { node with phase }

theorem tickStep_cases {gs : GenState} {tick : Tick}
    (serving : node.phase = .serving gs (some tick))
    (stepped : tickStep r s n node gs tick action = some s') :
    ∃ phase, s'.Leaves s n node phase ∧ Effect r s node action phase s'.marker s'.arbiter := by
  cases action with
  | observe _ k =>
    obtain ⟨-, rfl⟩ := of_guard stepped
    exact ⟨_, rfl, .drives serving (.flips k)⟩
  | drive _ k slot =>
    obtain ⟨-, rfl⟩ := of_guard stepped
    exact ⟨_, rfl, .drives serving .stays⟩
  | cut _ k =>
    simp only [tickStep] at stepped
    split at stepped
    · cases stepped
    · obtain ⟨-, mapped⟩ := Option.ite_none_right_eq_some.mp stepped
      obtain ⟨⟨flipped, gs'⟩, published, rfl⟩ := Option.map_eq_some_iff.mp mapped
      exact ⟨_, rfl, .drives serving (drives_of_cutOverOf published)⟩
  | next _ =>
    simp only [tickStep] at stepped
    split at stepped
    · cases stepped
      exact ⟨_, rfl, .drives serving .stays⟩
    · cases stepped
      exact ⟨_, rfl, .drives serving .stays⟩
    · obtain ⟨-, rfl⟩ := of_guard stepped
      exact ⟨_, rfl, .drives serving .stays⟩
    all_goals cases stepped
  | advanceMarker _ =>
    simp only [tickStep] at stepped
    split at stepped
    · cases stepped
    case h_2 next moving =>
      obtain ⟨-, rfl⟩ := of_guard stepped
      exact ⟨_, rfl, .marks serving moving⟩
  | commit _ =>
    simp only [tickStep] at stepped
    split at stepped
    · cases stepped
    case h_2 next moving =>
      obtain ⟨-, rfl⟩ := of_guard stepped
      exact ⟨_, rfl, .drives serving (.commits moving)⟩
  | advanceArbiter _ =>
    obtain ⟨-, rfl⟩ := of_guard stepped
    exact ⟨_, rfl, .advances serving⟩
  | endTick _ =>
    cases stepped
    exact ⟨_, rfl, .drives serving .stays⟩
  | _ => cases stepped

theorem bootstrapViaMarker_cases (s : State) (unitCount : UnitCount) :
    s.marker = none ∧ s.bootstrapViaMarker unitCount =
        ({ s with marker := some ⟨0, unitCount⟩ }, ⟨0, unitCount⟩, true) ∨
      ∃ m, s.marker = some m ∧ s.bootstrapViaMarker unitCount = (s, m, false) := by
  cases stored : s.marker with
  | none => exact .inl ⟨rfl, by simp [State.bootstrapViaMarker, stored]⟩
  | some m => exact .inr ⟨m, rfl, by simp [State.bootstrapViaMarker, stored]⟩

theorem nodeStep_cases (stepped : nodeStep r s n node action = some s') :
    ∃ phase, s'.Leaves s n node phase ∧ Effect r s node action phase s'.marker s'.arbiter := by
  unfold nodeStep at stepped
  split at stepped
  case h_1 =>
    rcases bootstrapViaMarker_cases s node.unitCount with ⟨absent, boots⟩ | ⟨m, stored, boots⟩
    · rw [boots] at stepped
      cases stepped
      exact ⟨_, rfl, .founds absent (.inl rfl)⟩
    · rw [boots] at stepped
      cases stepped
      exact ⟨_, rfl, .adopts stored⟩
  case h_2 deferring =>
    split at stepped
    · cases stepped
      exact ⟨_, rfl, .defers (.inl deferring) (.inl rfl)⟩
    · cases stepped
      exact ⟨_, rfl, .defers (.inl deferring) (.inr (.inl rfl))⟩
  case h_3 waiting =>
    split at stepped
    · rcases bootstrapViaMarker_cases s node.unitCount with ⟨absent, boots⟩ | ⟨m, stored, boots⟩
      · rw [boots] at stepped
        cases stepped
        exact ⟨_, rfl, .founds absent (.inr rfl)⟩
      · rw [boots] at stepped
        cases stepped
        exact ⟨_, rfl, .adopts stored⟩
    · cases stepped
      exact ⟨_, rfl, .defers (.inr waiting) (.inr (.inr rfl))⟩
  case h_4 seeding =>
    cases stepped
    exact ⟨_, rfl, .seeds seeding⟩
  case h_5 =>
    cases stepped
    exact ⟨_, rfl, .crashes⟩
  case h_6 serving =>
    obtain ⟨agreed, present, rfl⟩ := Option.map_eq_some_iff.mp stepped
    exact ⟨_, rfl, .reads serving present⟩
  case h_7 serving => exact tickStep_cases serving stepped
  case h_8 => cases stepped

theorem of_step (stepped : (machine r).step action s = some s') :
    (∃ n node, action.node? = some n ∧ s.nodes[n]? = some node ∧
        nodeStep r s n node action = some s') ∨
      ∃ event arbiter, Arbiter.atomic.step event s.arbiter = some arbiter ∧
        s' = { s with arbiter } ∧ (action = .advance ∧ event = .advance ∨
          ∃ target, action = .retarget target ∧ event = .retarget target) := by
  simp only [machine, step] at stepped
  split at stepped
  case h_1 target =>
    obtain ⟨arbiter, moved, rfl⟩ := Option.map_eq_some_iff.mp stepped
    exact .inr ⟨_, arbiter, moved, rfl, .inr ⟨target, rfl, rfl⟩⟩
  case h_2 =>
    obtain ⟨arbiter, moved, rfl⟩ := Option.map_eq_some_iff.mp stepped
    exact .inr ⟨_, arbiter, moved, rfl, .inl ⟨rfl, rfl⟩⟩
  case h_3 n _ _ own =>
    obtain ⟨node, found, moved⟩ := Option.bind_eq_some_iff.mp stepped
    exact .inl ⟨n, node, own, found, moved⟩
  case h_4 => cases stepped

end Shale.NodeLoop
