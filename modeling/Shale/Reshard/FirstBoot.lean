import Shale.Reshard.NodeLoop

/-!
# The first boot of a cluster

What the marker and the nodes of a cluster hold is consistent with a property of generations
and counts if it holds of the count that the cluster is founded with and of every count that a
node enters. On the first boot that property is to be at generation 0 with the founder's count.
The arbiter agrees with it if its seed does, and then no node enters a reshard before somebody
asks for one.
-/

namespace Shale.NodeLoop

open Arbiter (planNext)
open InitMarker (Marker)

variable {r : Nat} {s s' : State} {action : Action} {n : Nat} {node : Node} {phase : Phase}
  {marker : Option Marker} {arbiter : Option (Arbiter.State Nat)} {P P' : Nat → UnitCount → Prop}

def HeldBy (P : Nat → UnitCount → Prop) (gs : GenState) : Prop :=
  P gs.gen gs.count ∧ ∀ next ∈ gs.nextCount, P (gs.gen + 1) next

def Phase.Held (P : Nat → UnitCount → Prop) : Phase → Prop
  | .down => True
  | .deferring gen count | .waiting gen count => P gen count
  | .seeding gs | .serving gs _ => HeldBy P gs

structure Consistent (P : Nat → UnitCount → Prop) (s : State) : Prop where
  marker : ∀ m ∈ s.marker, P m.gen m.count
  nodes : ∀ node ∈ s.nodes, node.phase.Held P

variable {count : UnitCount} {gs : GenState} {gen : Nat}

theorem HeldBy.mono (held : HeldBy P gs) (kept : ∀ {gen count}, P gen count → P' gen count) :
    HeldBy P' gs :=
  ⟨kept held.1, fun next moving => kept (held.2 next moving)⟩

theorem Phase.Held.mono (held : phase.Held P)
    (kept : ∀ {gen count}, P gen count → P' gen count) : phase.Held P' := by
  cases phase with
  | down => trivial
  | deferring gen count | waiting gen count => exact kept held
  | seeding gs | serving gs tick => exact HeldBy.mono held kept

theorem Consistent.mono (consistent : Consistent P s)
    (kept : ∀ {gen count}, P gen count → P' gen count) : Consistent P' s :=
  ⟨fun m stored => kept (consistent.marker m stored),
    fun node member => (consistent.nodes node member).mono kept⟩

theorem heldBy_steady (held : P gen count) : HeldBy P (.steady gen count) :=
  ⟨held, nofun⟩

theorem HeldBy.drives {gs' : GenState} (held : HeldBy P gs) (drives : Drives gs gs') :
    HeldBy P gs' := by
  cases drives with
  | stays => exact held
  | flips k => exact held
  | commits moving => exact heldBy_steady (held.2 _ moving)

theorem of_advanceClusterInitMarker {m : Marker}
    (stored : (s.advanceClusterInitMarker gen count).marker = some m) :
    s.marker = some m ∨ s.marker.isSome ∧ m = ⟨gen, count⟩ := by
  simp only [State.advanceClusterInitMarker] at stored
  cases present : s.marker with
  | none =>
    rw [present] at stored
    cases stored
  | some old =>
    simp only [present, InitMarker.atomic] at stored
    split at stored
    · exact .inr ⟨rfl, (Option.some.inj stored).symm⟩
    · exact .inl stored

theorem Effect.held (effect : Effect r s node action phase marker arbiter)
    (consistent : Consistent P s) (held : node.phase.Held P)
    (founds : ∀ count, s.marker = none → marker = some ⟨0, count⟩ → P 0 count)
    (enters : ∀ n gs agreed, action = .read n → s.arbiter = some agreed → HeldBy P gs →
      gs.nextCount = none → HeldBy P (reshardGenStep gs agreed).1) :
    phase.Held P ∧ ∀ m ∈ marker, P m.gen m.count := by
  cases effect with
  | founds absent opens =>
    have own := founds _ absent rfl
    refine ⟨?_, fun m stored => Option.some.inj stored ▸ own⟩
    rcases opens with rfl | rfl
    · exact heldBy_steady own
    · exact own
  | adopts stored => exact ⟨consistent.marker _ stored, consistent.marker⟩
  | @defers _ gen count _ defers opens =>
    have own : P gen count := by
      rcases defers with same | same
      · rw [same] at held
        exact held
      · rw [same] at held
        exact held
    refine ⟨?_, consistent.marker⟩
    rcases opens with rfl | rfl | rfl
    · exact heldBy_steady own
    all_goals exact own
  | seeds seeding =>
    rw [seeding] at held
    exact ⟨held, consistent.marker⟩
  | crashes => exact ⟨trivial, consistent.marker⟩
  | reads serving present =>
    rw [serving] at held
    refine ⟨?_, consistent.marker⟩
    unfold startTick
    split
    · exact held
    case h_2 steady =>
      split
      · exact held
      · exact enters _ _ _ rfl present held steady
  | drives serving drives =>
    rw [serving] at held
    exact ⟨HeldBy.drives held drives, consistent.marker⟩
  | marks serving moving =>
    rw [serving] at held
    refine ⟨held, fun m stored => ?_⟩
    rcases of_advanceClusterInitMarker stored with old | ⟨-, rfl⟩
    · exact consistent.marker m old
    · exact held.2 _ moving
  | advances serving =>
    rw [serving] at held
    exact ⟨held, consistent.marker⟩

theorem Consistent.step (consistent : Consistent P s)
    (stepped : (machine r).step action s = some s')
    (founds : ∀ count, s.marker = none → s'.marker = some ⟨0, count⟩ → P 0 count)
    (enters : ∀ n gs agreed, action = .read n → s.arbiter = some agreed → HeldBy P gs →
      gs.nextCount = none → HeldBy P (reshardGenStep gs agreed).1) : Consistent P s' := by
  rcases of_step stepped with ⟨n, node, -, found, moved⟩ | ⟨event, arbiter, -, rfl, -⟩
  · obtain ⟨phase, leaves, effect⟩ := nodeStep_cases moved
    obtain ⟨held, kept⟩ := effect.held consistent
      (consistent.nodes node (List.mem_of_getElem? found)) founds enters
    refine ⟨kept, fun other member => ?_⟩
    rw [leaves] at member
    rcases List.mem_or_eq_of_mem_set member with old | rfl
    · exact consistent.nodes other old
    · exact held
  · exact ⟨consistent.marker, consistent.nodes⟩

theorem isSome_of_advanceClusterInitMarker (present : s.marker.isSome) :
    (s.advanceClusterInitMarker gen count).marker.isSome := by
  obtain ⟨m, stored⟩ := Option.isSome_iff_exists.mp present
  simp only [State.advanceClusterInitMarker, stored, InitMarker.atomic]
  split <;> rfl

theorem marker_isSome_of_step (stepped : (machine r).step action s = some s')
    (present : s.marker.isSome) : s'.marker.isSome := by
  rcases of_step stepped with ⟨n, node, -, -, moved⟩ | ⟨event, arbiter, -, rfl, -⟩
  · obtain ⟨phase, -, effect⟩ := nodeStep_cases moved
    generalize s'.marker = marker, s'.arbiter = arbiter at effect
    cases effect with
    | founds => rfl
    | marks => exact isSome_of_advanceClusterInitMarker present
    | _ => exact present
  · exact present

inductive Moves (s s' : State) : Action → Prop where
  | keeps {action : Action} (same : s'.arbiter = s.arbiter) : Moves s s' action
  | seeds {n : Nat} {node : Node} {gs : GenState} (found : s.nodes[n]? = some node)
      (seeding : node.phase = .seeding gs) (absent : s.arbiter = none)
      (seeded : s'.arbiter = some (.seed node.unitCount)) : Moves s s' (.seed n)
  | retargets {target : UnitCount} {cur : Arbiter.State Nat} (present : s.arbiter = some cur)
      (moved : s'.arbiter = some (cur.retarget target)) : Moves s s' (.retarget target)
  | advances {action : Action} {cur next : Arbiter.State Nat}
      (turns : action = .advance ∨ ∃ n, action = .advanceArbiter n)
      (present : s.arbiter = some cur) (planned : planNext cur = .ok (some next))
      (moved : s'.arbiter = some next) : Moves s s' action

theorem of_atomic_advance {cur arbiter : Option (Arbiter.State Nat)}
    (moved : Arbiter.atomic.step .advance cur = some arbiter) :
    ∃ before next, cur = some before ∧ planNext before = .ok (some next) ∧ arbiter = some next := by
  obtain ⟨_, seeds, -⟩ | ⟨_, _, retargets, -⟩ | ⟨before, next, -, advances⟩ :=
    Arbiter.atomic_cases moved
  · cases seeds
  · cases retargets
  · exact ⟨before, next, advances⟩

theorem moves_of_step (stepped : (machine r).step action s = some s') : Moves s s' action := by
  rcases of_step stepped with ⟨n, node, own, found, taken⟩ |
    ⟨event, arbiter, moved, rfl, ⟨rfl, rfl⟩ | ⟨target, rfl, rfl⟩⟩
  · obtain ⟨phase, -, effect⟩ := nodeStep_cases taken
    generalize s'.marker = marker, moved : s'.arbiter = arbiter at effect
    cases effect with
    | seeds seeding =>
      cases own
      cases present : s.arbiter with
      | none =>
        refine .seeds found seeding present (moved.trans ?_)
        simp [State.seedArbiter, present, Arbiter.atomic]
      | some cur =>
        refine .keeps (moved.trans ?_)
        simp [State.seedArbiter, present, Arbiter.atomic]
    | advances serving =>
      cases advanced : Arbiter.atomic.step .advance s.arbiter with
      | none => exact .keeps (moved.trans (by simp [State.advanceArbiter, advanced]))
      | some later =>
        obtain ⟨cur, next, present, planned, rfl⟩ := of_atomic_advance advanced
        exact .advances (.inr ⟨_, rfl⟩) present planned
          (moved.trans (by simp [State.advanceArbiter, advanced]))
    | _ => exact .keeps moved
  · obtain ⟨cur, next, present, planned, rfl⟩ := of_atomic_advance moved
    exact .advances (.inl rfl) present planned rfl
  · obtain ⟨_, ⟨⟩, -⟩ | ⟨_, cur, ⟨⟩, present, -, rfl⟩ | ⟨_, _, ⟨⟩, -⟩ :=
      Arbiter.atomic_cases moved
    exact .retargets present rfl

/-- The node has opened. -/
def Phase.isServing : Phase → Bool
  | .serving .. => true
  | .down | .deferring .. | .waiting .. | .seeding _ => false

theorem isSome_advanceArbiter (present : s.arbiter.isSome) : s.advanceArbiter.arbiter.isSome := by
  cases moved : Arbiter.atomic.step .advance s.arbiter with
  | none => simpa [State.advanceArbiter, moved] using present
  | some later =>
    obtain ⟨cur, next, -, -, rfl⟩ := of_atomic_advance moved
    simp [State.advanceArbiter, moved]

theorem Effect.opened (effect : Effect r s node action phase marker arbiter)
    (opened : node.phase.isServing → s.arbiter.isSome) (serving : phase.isServing) :
    arbiter.isSome := by
  cases effect with
  | founds absent opens => rcases opens with rfl | rfl <;> cases serving
  | adopts => cases serving
  | defers _ opens => rcases opens with rfl | rfl | rfl <;> cases serving
  | seeds => cases present : s.arbiter <;> simp [State.seedArbiter, present, Arbiter.atomic]
  | crashes => cases serving
  | reads _ present => rw [present]; rfl
  | drives was | marks was => exact opened (by rw [was]; rfl)
  | advances was => exact isSome_advanceArbiter (opened (by rw [was]; rfl))

theorem arbiter_isSome_of_serving {allowed : State → Action → Prop} {unitCounts : List UnitCount}
    (reached : (machine r).Reaches allowed (initial unitCounts) s) :
    ∀ node ∈ s.nodes, node.phase.isServing → s.arbiter.isSome := by
  induction reached with
  | refl =>
    intro node mem serving
    obtain ⟨unitCount, -, rfl⟩ := List.mem_map.mp mem
    cases serving
  | @tail before after _ _ _ stepped opened =>
    intro node mem serving
    have stays : before.arbiter.isSome → after.arbiter.isSome := by
      intro present
      cases moves_of_step stepped with
      | keeps same => rwa [same]
      | seeds _ _ _ seeded => rw [seeded]; rfl
      | retargets _ moved | advances _ _ _ moved => rw [moved]; rfl
    rcases of_step stepped with ⟨n, acting, -, found, taken⟩ | ⟨event, arbiter, -, rfl, -⟩
    · obtain ⟨phase, leaves, effect⟩ := nodeStep_cases taken
      rw [leaves] at mem
      rcases List.mem_or_eq_of_mem_set mem with old | rfl
      · exact stays (opened node old serving)
      · exact effect.opened (opened acting (List.mem_of_getElem? found)) serving
    · exact stays (opened node mem serving)

def AtFounding (founding : UnitCount) (gen : Nat) (count : UnitCount) : Prop :=
  gen = 0 ∧ count = founding

def SeedsMarker (s : State) : Action → Prop
  | .seed n => s.arbiter = none →
      ∀ node ∈ s.nodes[n]?, ∀ m ∈ s.marker, m.count = node.unitCount
  | _ => True

/-- Nobody asks for another count. -/
def Unrequested : Action → Prop
  | .retarget _ => False
  | _ => True

instance : DecidableRel SeedsMarker := fun s action =>
  match action with
  | .seed n => inferInstanceAs (Decidable (s.arbiter = none →
      ∀ node ∈ s.nodes[n]?, ∀ m ∈ s.marker, m.count = node.unitCount))
  | .boot _ | .deferRead .. | .reread .. | .crash _ | .retarget _ | .advance | .read _
  | .observe .. | .drive .. | .cut .. | .next _ | .advanceMarker _ | .commit _
  | .advanceArbiter _ | .endTick _ => isTrue trivial

instance : DecidablePred Unrequested := fun action =>
  match action with
  | .retarget _ => isFalse id
  | .seed _ | .boot _ | .deferRead .. | .reread .. | .crash _ | .advance | .read _
  | .observe .. | .drive .. | .cut .. | .next _ | .advanceMarker _ | .commit _
  | .advanceArbiter _ | .endTick _ => isTrue trivial

def BootStep (s : State) (action : Action) : Prop := SeedsMarker s action ∧ Unrequested action

instance : DecidableRel BootStep := fun s action =>
  inferInstanceAs (Decidable (SeedsMarker s action ∧ Unrequested action))

/-- The states of a first boot: nothing is stored and no node is up, or all that is stored and
in use is the founding. -/
inductive Booting (s : State) : Prop where
  | fresh (marker : s.marker = none) (arbiter : s.arbiter = none)
      (consistent : Consistent (fun _ _ => False) s)
  | founded (founding : UnitCount) (marker : s.marker = some ⟨0, founding⟩)
      (arbiter : ∀ agreed ∈ s.arbiter, agreed = .seed founding)
      (consistent : Consistent (AtFounding founding) s)

theorem booting_initial (unitCounts : List UnitCount) : Booting (initial unitCounts) := by
  refine .fresh rfl rfl ⟨nofun, fun node member => ?_⟩
  obtain ⟨unitCount, -, rfl⟩ := List.mem_map.mp member
  trivial

theorem of_fresh_step (unseeded : s.arbiter = none) (consistent : Consistent (fun _ _ => False) s)
    (stepped : (machine r).step action s = some s') :
    s'.arbiter = none ∧ (s'.marker = none ∧ Consistent (fun _ _ => False) s' ∨
      ∃ founding, s'.marker = some ⟨0, founding⟩ ∧ Consistent (AtFounding founding) s') := by
  have still : s'.arbiter = none := by
    cases moves_of_step stepped with
    | keeps same => rw [same, unseeded]
    | seeds found seeding =>
      have held := consistent.nodes _ (List.mem_of_getElem? found)
      rw [seeding] at held
      exact held.1.elim
    | retargets present | advances _ present =>
      rw [unseeded] at present
      cases present
  have enters : ∀ {P : Nat → UnitCount → Prop}, ∀ n gs agreed, action = .read n →
      s.arbiter = some agreed → HeldBy P gs → gs.nextCount = none →
      HeldBy P (reshardGenStep gs agreed).1 := by
    intro P n gs agreed _ present
    rw [unseeded] at present
    cases present
  refine ⟨still, ?_⟩
  cases marked : s'.marker with
  | none =>
    refine .inl ⟨rfl, consistent.step stepped (fun count _ now => ?_) enters⟩
    rw [marked] at now
    cases now
  | some m =>
    have kept : Consistent (AtFounding m.count) s' := by
      refine (consistent.mono False.elim).step stepped (fun count _ now => ?_) enters
      rw [marked] at now
      cases now
      exact ⟨rfl, rfl⟩
    have founded := kept.marker m marked
    exact .inr ⟨m.count, by rw [← founded.1], kept⟩

theorem reshardGenStep_of_eq {agreed : Arbiter.State Nat} (steady : gs.nextCount = none)
    (same : gs.count = agreed.count) : reshardGenStep gs agreed = (gs, false) := by
  simp [reshardGenStep, steady, same]

theorem marker_of_consistent {founding : UnitCount}
    (consistent : Consistent (AtFounding founding) s) (present : s.marker.isSome) :
    s.marker = some ⟨0, founding⟩ := by
  obtain ⟨⟨gen, count⟩, stored⟩ := Option.isSome_iff_exists.mp present
  obtain ⟨rfl, rfl⟩ := consistent.marker _ stored
  exact stored

theorem Booting.step (booting : Booting s) (matched : SeedsMarker s action)
    (unrequested : Unrequested action) (stepped : (machine r).step action s = some s') :
    Booting s' := by
  cases booting with
  | fresh absent unseeded consistent =>
    obtain ⟨still, ⟨marker, kept⟩ | ⟨founding, marker, kept⟩⟩ :=
      of_fresh_step unseeded consistent stepped
    · exact .fresh marker still kept
    · exact .founded founding marker (by simp [still]) kept
  | founded founding marker arbiter consistent =>
    have kept : Consistent (AtFounding founding) s' := by
      refine consistent.step stepped (fun count absent => ?_) ?_
      · rw [marker] at absent
        cases absent
      · intro n gs agreed _ present held steady
        obtain rfl := arbiter agreed present
        rwa [reshardGenStep_of_eq steady held.1.2]
    refine .founded founding (marker_of_consistent kept ?_) ?_ kept
    · exact marker_isSome_of_step stepped (by rw [marker]; rfl)
    · intro agreed now
      cases moves_of_step stepped with
      | keeps same => exact arbiter agreed (same ▸ now)
      | seeds found _ absent seeded =>
        have same := matched absent _ found _ marker
        rw [seeded] at now
        rw [← Option.some.inj now, ← same]
      | retargets => exact unrequested.elim
      | advances _ present planned =>
        simp [arbiter _ present, planNext, Arbiter.State.seed] at planned

/-- Every node that has opened finds the marker and the arbiter at one count, which it has
itself, and nothing to enter or to advance, as long as the seed that took effect was by a node
configured with the marker's count and nobody asks for another one. -/
theorem first_boot_agrees {unitCounts : List UnitCount}
    (reached : (machine r).Reaches BootStep (initial unitCounts) s) :
    ∀ node ∈ s.nodes, ∀ gs tick, node.phase = .serving gs tick →
      ∃ agreed m, s.arbiter = some agreed ∧ s.marker = some m ∧ agreed.count = m.count ∧
        agreed.target = m.count ∧ gs.nextCount = none ∧
        (reshardGenStep gs agreed).2 = false ∧ shouldAdvanceArbiter gs agreed = false := by
  intro node member gs tick serving
  have booting : Booting s :=
    reached.invariant (booting_initial unitCounts)
      fun booting permitted stepped => booting.step permitted.1 permitted.2 stepped
  have present := arbiter_isSome_of_serving reached node member (by rw [serving]; rfl)
  obtain ⟨agreed, seeded⟩ := Option.isSome_iff_exists.mp present
  cases booting with
  | fresh _ unseeded =>
    rw [unseeded] at seeded
    cases seeded
  | founded founding marker arbiter consistent =>
    have held := consistent.nodes node member
    rw [serving] at held
    obtain ⟨⟨-, same⟩, moving⟩ := held
    have steady : gs.nextCount = none := by
      cases next : gs.nextCount with
      | none => rfl
      | some next => cases (moving _ next).1
    obtain rfl := arbiter agreed seeded
    refine ⟨_, _, seeded, marker, rfl, rfl, steady, ?_, ?_⟩
    · rw [reshardGenStep_of_eq steady same]
    · simp [shouldAdvanceArbiter, Arbiter.State.seed]

/-- The second of two nodes, with another count, adopts the founder's marker and comes after it
to the arbiter. -/
def secondAdopts : List Action :=
  [.boot 0, .boot 1, .seed 0, .deferRead 1 true false, .seed 1, .read 1]

theorem second_node_adopts :
    let s := (machine 2).endOf BootStep secondAdopts (initial [.two, .one])
    s.nodes[1]? = some ⟨.one, .serving (.steady 0 .two) (some ⟨.seed .two, .advance⟩)⟩ ∧
      ∃ agreed m, s.arbiter = some agreed ∧ s.marker = some m ∧ agreed.count = m.count ∧
        agreed.target = m.count := by
  have reached := (machine 2).reaches_endOf BootStep secondAdopts (initial [.two, .one])
    (by decide)
  have opened : ((machine 2).endOf BootStep secondAdopts (initial [.two, .one])).nodes[1]? =
      some ⟨.one, .serving (.steady 0 .two) (some ⟨.seed .two, .advance⟩)⟩ := by decide
  obtain ⟨agreed, m, seeded, marked, count, target, -⟩ :=
    first_boot_agrees reached _ (List.mem_of_getElem? opened) _ _ rfl
  exact ⟨opened, agreed, m, seeded, marked, count, target⟩

/-- The second of two nodes adopts the founder's marker and is the first to seed the arbiter,
with its own count. -/
def secondSeeds : List Action :=
  [.boot 0, .boot 1, .deferRead 1 true false, .seed 1, .seed 0, .read 0]

/-- Both nodes have opened, the arbiter is seeded with another count than the marker's, and the
founder enters a merge that nobody has asked for. -/
theorem other_seed_enters_merge :
    ∃ s, (machine 2).Reaches (fun _ action => Unrequested action) (initial [.two, .one]) s ∧
      s.marker = some ⟨0, .two⟩ ∧ s.arbiter = some (.seed .one) ∧
      s.nodes = [⟨.two, .serving ((GenState.steady 0 .two).enter .one)
          (some ⟨.seed .one, .observe⟩)⟩, ⟨.one, .serving (.steady 0 .two) none⟩] :=
  (machine 2).exists_reaches_of_run _ secondSeeds _ _ (by decide)

end Shale.NodeLoop
