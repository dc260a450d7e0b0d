import Shale.Handoff.Serving

/-!
# Releases and successors

A node gives up a mount of its own accord in two ways: `drainCheck` releases a drain whose gate a
marker has passed, and a pass releases a position in neither set whose marker is above the epoch
the node has opened it at. Both compare a marker with an epoch that was read before, outside the
table's lock, and both are meant to happen only once another node serves the position.
-/

namespace Shale.Handoff

variable {p : Place} {errand : Errand} {event : Event} {next : Option Errand} {c : Cell}
  {node other epoch later : Nat}

namespace Cell

def Succeeded (node epoch : Nat) (c : Cell) : Prop :=
  ∃ other later, other ≠ node ∧ epoch < later ∧ (other, later) ∈ c.served

theorem Accounted.succeeded (fine : c.Accounted) (mounted : (c.slots node).mount = some epoch)
    (served : (other, later) ∈ c.served) (above : epoch < later) : c.Succeeded node epoch := by
  refine ⟨other, later, ?_, above, served⟩
  rintro rfl
  exact absurd ((fine.mounted mounted).2 served) (Nat.not_le.mpr above)

theorem Accounted.served_of_marker (fine : c.Accounted) (marked : c.marker = some epoch) :
    ∃ node, (node, epoch) ∈ c.served := by
  obtain ⟨node, marked⟩ := fine.marker marked
  exact ⟨node, fine.marked marked⟩

def Gated (c : Cell) : Prop :=
  ∀ {node gateEpoch}, (c.slots node).phase = some ⟨.draining, gateEpoch⟩ →
    ∃ epoch, (c.slots node).mount = some epoch ∧ epoch ≤ gateEpoch

end Cell

/-- The first node comes to remove a mount of the first position that nobody has succeeded, in a
run whose accesses all find what a condition says. -/
def Unsucceeded (condition : Errand → Event → Place → Bool) (errand : Errand) (epoch : Nat) :
    Prop :=
  ∃ s s', (machine fun _ => false).Reaches (Finds condition) initial s ∧
    s.phase (0, .reconciler) = .running (position 0) errand [] ∧
    (machine fun _ => false).step ((0, .reconciler), .go) s = some s' ∧
    ((s.object (position 0)).slots 0).mount = some epoch ∧
    ((s'.object (position 0)).slots 0).mount = none ∧
    ¬ (s.object (position 0)).Succeeded 0 epoch

theorem unsucceeded_of_run {condition : Errand → Event → Place → Bool}
    (actions : List ((Nat × Worker) × Event))
    (ran : ((machine fun _ => false).run (Finds condition) actions initial).any (fun s =>
      ((machine fun _ => false).step ((0, .reconciler), .go) s).any fun s' =>
        decide (s.phase (0, .reconciler) = .running (position 0) errand [] ∧
          ((s.object (position 0)).slots 0).mount = some epoch ∧
          ((s'.object (position 0)).slots 0).mount = none ∧
          ∀ entry ∈ (s.object (position 0)).served, entry.1 = 0 ∨ entry.2 ≤ epoch)) = true) :
    Unsucceeded condition errand epoch := by
  obtain ⟨s, s', reached, stepped, running, mounted, removed, alone⟩ :=
    Machine.exists_step_of_run _ _ actions ((0, .reconciler), .go) initial _ ran
  refine ⟨s, s', reached, running, stepped, mounted, removed, ?_⟩
  rintro ⟨other, later, apart, above, served⟩
  rcases alone _ served with own | low
  · exact apart own
  · exact absurd above (Nat.not_lt.mpr low)

def gatesCurrent : Errand → Event → Place → Bool
  | .arm gateEpoch, _, p => p.slot.phase.isSome || p.slot.mount.all fun epoch => epoch ≤ gateEpoch
  | _, _, _ => true

namespace Errand

def Watches (node : Nat) (c : Cell) : Errand → Prop
  | .place | .own | .ownDurable | .judge _ | .unmount _ => (c.slots node).phase = none
  | .orphan gateEpoch | .poll gateEpoch => (c.slots node).phase = some ⟨.draining, gateEpoch⟩
  | .release => ∃ gateEpoch other later, (c.slots node).phase = some ⟨.draining, gateEpoch⟩ ∧
      gateEpoch < later ∧ (other, later) ∈ c.served
  | _ => True

theorem Watches.of_learned (fine : c.Accounted) (known : errand.Watches node c)
    {following : Errand} (learned : Learned (c.place node) errand event following) :
    following.Watches node c := by
  cases following with
  | place => exact learned
  | own | ownDurable | judge => rcases learned with rfl | rfl | rfl <;> exact known
  | unmount ownEpoch =>
    cases ownEpoch with
    | none =>
      cases learned
      exact known
    | some ownEpoch =>
      obtain ⟨rfl, -⟩ := learned
      exact known
  | orphan => exact learned
  | poll =>
    cases learned
    exact known
  | release =>
    obtain ⟨gateEpoch, epoch, rfl, marked, above⟩ := learned
    obtain ⟨other, served⟩ := fine.served_of_marker marked
    exact ⟨gateEpoch, other, epoch, known, above, served⟩
  | _ => trivial

theorem Watches.following (fine : c.Accounted) (known : errand.Watches node c)
    {following : Errand} (did : errand.Did (c.place node) event p (some following)) :
    following.Watches node (c.after node errand event p (some following)) := by
  rcases Cell.told_or_afterChange did with ⟨same, learned⟩ | changed
  · rw [same]
    exact known.of_learned fine learned
  · cases following <;> trivial

theorem Watches.across {worker watcher : Worker} {ru : ReplicaUnit} {seen : Errand}
    (did : errand.Did (c.place node) event p next) (mine : errand.IsOf worker ru)
    (theirs : seen.IsOf watcher ru) (apart : (other, watcher) ≠ (node, worker))
    (known : seen.Watches other c) : seen.Watches other (c.after node errand event p next) := by
  have phases : watcher = .reconciler →
      ((c.after node errand event p next).slots other).phase = (c.slots other).phase ∨
        (c.slots other).loser = false ∧
          ((c.after node errand event p next).slots other).phase = none := by
    rintro rfl
    by_cases same : other = node
    · subst same
      rw [Cell.slots_after_self]
      exact did.phase_of_isOf mine fun here => apart (by rw [here])
    · exact .inl (by rw [Cell.slots_after_of_ne same])
  have settled : watcher = .reconciler → (c.slots other).phase = none →
      ((c.after node errand event p next).slots other).phase = none := by
    intro theirs absent
    rcases phases theirs with same | ⟨-, gone⟩
    · rw [same, absent]
    · exact gone
  have draining : ∀ {gateEpoch}, watcher = .reconciler →
      (c.slots other).phase = some ⟨.draining, gateEpoch⟩ →
      ((c.after node errand event p next).slots other).phase = some ⟨.draining, gateEpoch⟩ := by
    intro gateEpoch theirs drains
    rcases phases theirs with same | ⟨keeps, -⟩
    · rw [same, drains]
    · simp [Slot.loser, drains, HandoffPhase.isLoser] at keeps
  cases seen with
  | place | own | ownDurable | judge | unmount => exact settled theirs known
  | orphan | poll => exact draining theirs known
  | release =>
    obtain ⟨gateEpoch, successor, later, drains, above, served⟩ := known
    exact ⟨gateEpoch, successor, later, draining theirs drains, above,
      Cell.served_subset_after did served⟩
  | _ => trivial

end Errand

theorem Cell.Gated.after (gated : c.Gated) (known : errand.Watches node c)
    (current : gatesCurrent errand event (c.place node) = true)
    (did : errand.Did (c.place node) event p next) : (c.after node errand event p next).Gated := by
  intro other gateEpoch drains
  by_cases same : other = node
  case neg =>
    rw [Cell.slots_after_of_ne same] at drains ⊢
    exact gated drains
  subst same
  rw [Cell.slots_after_self] at drains ⊢
  cases did with
  | armed mounted settled =>
    cases drains
    obtain ⟨epoch, mounted⟩ := Option.ne_none_iff_exists'.mp mounted
    refine ⟨epoch, mounted, ?_⟩
    simpa [gatesCurrent, settled, mounted] using current
  -- a position in neither set has no phase, and a drain is not evicted
  | unmounted => exact absurd (drains.symm.trans known) (by simp)
  | evicted keeps =>
    have loses : (c.slots other).phase = some ⟨.draining, gateEpoch⟩ := drains
    simp [Cell.place, Slot.loser, loses, HandoffPhase.isLoser] at keeps
  | reclaimed => cases drains
  | flipped => cases drains
  | begun => cases drains
  | cleared => cases drains
  | released => cases drains
  | lapsed => cases drains
  | installed => cases drains
  | _ => exact gated drains

section Drain

variable {closed : Nat → Bool} {s : State} {condition : Errand → Event → Place → Bool}

theorem gated_of_reaches (reached : (machine closed).Reaches (Finds condition) initial s)
    (gates : ∀ {errand event p}, condition errand event p = true →
      gatesCurrent errand event p = true)
    (flips : ∀ {errand event p}, condition errand event p = true →
      flipsRecorded errand event p = true) :
    (∀ ru, (s.object ru).Gated) ∧ ∀ {name ru errand rest},
      s.phase name = .running ru errand rest → errand.Watches name.1 (s.object ru) := by
  refine errands_invariant (fun c => c.Gated) (fun node errand c => errand.Watches node c) reached
    nofun ?_ ?_
  · intro node errand c entry
    cases errand <;> trivial
  intro s node worker event ru errand rest p next reached permitted running mine gated known did
  have fine := accounted_of_reaches reached flips ru
  refine ⟨gated.after known (gates (permitted.running running)) did, ?_,
    fun apart theirs seen => Errand.Watches.across did mine theirs apart seen⟩
  rintro following rfl
  exact known.following fine did

def drainsCurrent (errand : Errand) (event : Event) (p : Place) : Bool :=
  gatesCurrent errand event p && flipsRecorded errand event p

/-- If every drain is armed with a gate that is not below its mount, and every stuck flip finds
its epoch recorded, then `drainCheck` removes a mount only after another node has completed a
serving mount at a higher epoch, and no marker of a draining node is above its own gate. -/
theorem drain_released_to_successor
    (reached : (machine closed).Reaches (Finds drainsCurrent) initial s) (node : Nat)
    (ru : ReplicaUnit) :
    (∀ {rest event s' epoch}, s.phase (node, .reconciler) = .running ru .release rest →
      (machine closed).step ((node, .reconciler), event) s = some s' →
      ((s.object ru).slots node).mount = some epoch → ((s'.object ru).slots node).mount = none →
        (s.object ru).Succeeded node epoch) ∧
    ∀ {gateEpoch epoch}, ((s.object ru).slots node).phase = some ⟨.draining, gateEpoch⟩ →
      (node, epoch) ∈ (s.object ru).marks → epoch ≤ gateEpoch := by
  have fine : (s.object ru).Accounted :=
    accounted_of_reaches reached (fun holds => (Bool.and_eq_true_iff.mp holds).2) ru
  obtain ⟨gated, watching⟩ := gated_of_reaches reached
    (fun holds => (Bool.and_eq_true_iff.mp holds).1) fun holds => (Bool.and_eq_true_iff.mp holds).2
  constructor
  · intro rest event s' epoch running _ mounted _
    obtain ⟨gateEpoch, other, later, drains, above, served⟩ := watching running
    obtain ⟨drained, here, low⟩ := gated ru drains
    cases here.symm.trans mounted
    exact fine.succeeded mounted served (low.trans_lt above)
  · intro gateEpoch epoch drains marked
    obtain ⟨drained, here, low⟩ := gated ru drains
    exact ((fine.mounted here).2 (fine.marked marked)).trans low

theorem drain_released_to_successor_polled :
    ∃ s s', (machine fun _ => false).Reaches (Finds drainsCurrent) initial s ∧
      s.phase (0, .reconciler) = .running (position 0) .release [] ∧
      (machine fun _ => false).step ((0, .reconciler), .go) s = some s' ∧
      ((s.object (position 0)).slots 0).mount = some 1 ∧
      ((s'.object (position 0)).slots 0).mount = none ∧ (s.object (position 0)).Succeeded 0 1 := by
  obtain ⟨s, s', reached, stepped, running, mounted, removed⟩ :=
    Machine.exists_step_of_run (machine fun _ => false) (Finds drainsCurrent)
      (List.flatten
        [acquires 0 .go, [((0, .reconciler), .reconcile [position 0] [] [position 0])],
          List.replicate 3 ((0, .reconciler), .go), acquires 1 .go,
          [((0, .reconciler), .poll [position 0])], List.replicate 3 ((0, .reconciler), .go)])
      ((0, .reconciler), .go) initial
      (fun s s' => s.phase (0, .reconciler) = .running (position 0) .release [] ∧
        ((s.object (position 0)).slots 0).mount = some 1 ∧
        ((s'.object (position 0)).slots 0).mount = none)
      (by decide)
  exact ⟨s, s', reached, running, stepped, mounted, removed,
    (drain_released_to_successor reached 0 (position 0)).1 running stepped mounted removed⟩

/-- A prompt acquire stalls after its reads, while the position is acquired and then to be drained.
When the gate has been read, a routed operation evicts the mount, and the prompt acquire mounts the
position again: its own new marker releases the drain. -/
theorem drain_released_to_nobody : Unsucceeded flipsRecorded .release 2 :=
  unsucceeded_of_run
    (List.flatten
      [[((0, .prompt 0), .desire [position 0]), ((0, .prompt 0), .go), ((0, .prompt 0), .go)],
        acquires 0 .go,
        [((0, .reconciler), .reconcile [position 0] [] [position 0]), ((0, .reconciler), .go),
          ((0, .reconciler), .go), ((0, .op 0), .fetch (position 0)), ((0, .op 0), .go),
          ((0, .prompt 0), .go)],
        List.replicate 5 ((0, .acquire (position 0)), .go),
        [((0, .reconciler), .go), ((0, .acquire (position 0)), .go),
          ((0, .reconciler), .poll [position 0])],
        List.replicate 3 ((0, .reconciler), .go)])
    (by decide)

def stuckFlip (node : Nat) : List ((Nat × Worker) × Event) :=
  List.flatten
    [[((node, .reconciler), .reconcile [position 0] [position 0] [])],
      List.replicate 3 ((node, .reconciler), .go), [((node, .acquire (position 0)), .go)],
      [((node, .reconciler), .reconcile [position 0] [position 0] [])],
      List.replicate 2 ((node, .acquire (position 0)), .go),
      List.replicate 3 ((node, .reconciler), .go),
      List.replicate 2 ((node, .acquire (position 0)), .go)]

theorem drain_released_to_open : Unsucceeded gatesCurrent .release 2 :=
  unsucceeded_of_run
    (List.flatten
      [stuckFlip 2, acquires 0 .go, [((0, .reconciler), .reconcile [position 0] [] [position 0])],
        List.replicate 3 ((0, .reconciler), .go),
        [((1, .reconciler), .reconcile [position 0] [position 0] [])],
        List.replicate 3 ((1, .reconciler), .go),
        List.replicate 2 ((1, .acquire (position 0)), .go),
        [((2, .reconciler), .reconcile [position 0] [position 0] [position 0]),
          ((2, .reconciler), .go), ((2, .reconciler), .go), ((2, .op 0), .fetch (position 0)),
          ((2, .op 0), .go)],
        List.replicate 4 ((2, .reconciler), .go),
        [((0, .reconciler), .poll [position 0])], List.replicate 3 ((0, .reconciler), .go)])
    (by decide)

end Drain

def marksFound : Errand → Event → Place → Bool
  | .judge _, .go, p => p.marker.isSome
  | _, _, _ => true

/-- A judged position is released while its mount is not above the epoch that the pass has
read. -/
def ownCurrent : Errand → Event → Place → Bool
  | .unmount (some ownEpoch), _, p => p.slot.mount.all fun epoch => epoch ≤ ownEpoch
  | _, _, _ => true

namespace Errand

/-- A pass that has judged a position knows of a serving mount above the epoch it has read. -/
def Judges (c : Cell) : Errand → Prop
  | .unmount (some ownEpoch) => ∃ other later, ownEpoch < later ∧ (other, later) ∈ c.served
  | _ => True

theorem Judges.following (fine : c.Accounted)
    (found : marksFound errand event (c.place node) = true) {following : Errand}
    (did : errand.Did (c.place node) event p (some following)) :
    following.Judges (c.after node errand event p (some following)) := by
  rcases Cell.told_or_afterChange did with ⟨same, learned⟩ | changed
  · rw [same]
    cases following with
    | unmount ownEpoch =>
      cases ownEpoch with
      | none => trivial
      | some ownEpoch =>
        obtain ⟨rfl, rfl, above⟩ := learned
        obtain ⟨later, marked⟩ := Option.isSome_iff_exists.mp found
        obtain ⟨other, served⟩ := fine.served_of_marker marked
        exact ⟨other, later, above later marked, served⟩
    | _ => trivial
  · cases following <;> trivial

theorem Judges.across {seen : Errand} (did : errand.Did (c.place node) event p next)
    (known : seen.Judges c) : seen.Judges (c.after node errand event p next) := by
  cases seen with
  | unmount ownEpoch =>
    cases ownEpoch with
    | none => trivial
    | some ownEpoch =>
      obtain ⟨other, later, above, served⟩ := known
      exact ⟨other, later, above, Cell.served_subset_after did served⟩
  | _ => trivial

theorem of_step_unmount {closed : Bool} {ru : ReplicaUnit} {p' : Place}
    (stepped : errand.step closed ru p event = some (p', some (.unmount none))) :
    errand = .place ∧ ∃ gs replicas, event = .view gs replicas ∧ placed ru gs replicas = false := by
  have here : errand = .place := by
    generalize goes : some (unmount none) = next at stepped
    cases did_of_step stepped with
    | read _ learned => exact learned _ goes.symm
    | shut at_close => rcases at_close with ⟨-, rfl⟩ | ⟨-, rfl⟩ | ⟨-, rfl⟩ <;> cases goes
    | fenced at_open => rcases at_open with ⟨-, rfl⟩ | ⟨-, rfl⟩ <;> cases goes
    | _ => cases goes
  subst here
  refine ⟨rfl, ?_⟩
  cases event with
  | view gs replicas =>
    refine ⟨gs, replicas, rfl, ?_⟩
    cases used : placed ru gs replicas with
    | false => rfl
    | true => simp [step, used] at stepped
  | _ => cases stepped

end Errand

section Abandon

variable {closed : Nat → Bool} {s : State} {condition : Errand → Event → Place → Bool}

theorem judges_of_reaches (reached : (machine closed).Reaches (Finds condition) initial s)
    (found : ∀ {errand event p}, condition errand event p = true →
      marksFound errand event p = true)
    (flips : ∀ {errand event p}, condition errand event p = true →
      flipsRecorded errand event p = true) :
    ∀ {name ru errand rest}, s.phase name = .running ru errand rest →
      errand.Judges (s.object ru) := by
  refine (errands_invariant (fun _ => True) (fun _ errand c => errand.Judges c) reached
    trivial ?_ ?_).2
  · intro node errand c entry
    cases errand <;> trivial
  intro s node worker event ru errand rest p next reached permitted running _ _ _ did
  have fine := accounted_of_reaches reached flips ru
  refine ⟨trivial, ?_, fun _ _ seen => Errand.Judges.across did seen⟩
  rintro following rfl
  exact .following fine (found (permitted.running running)) did

/-- Every pass that judges a position finds a marker, releases the position while its mount is not
above the epoch that was read, and every stuck flip finds its epoch recorded. -/
def releasesCurrent (errand : Errand) (event : Event) (p : Place) : Bool :=
  marksFound errand event p && ownCurrent errand event p && flipsRecorded errand event p

/-- Under these conditions a pass releases a mount that it has judged only after another node has
completed a serving mount at a higher epoch. It releases a mount unjudged only if it has found
that the position is not one of the live placement. -/
theorem abandoned_released_to_successor
    (reached : (machine closed).Reaches (Finds releasesCurrent) initial s) (node : Nat)
    (ru : ReplicaUnit) :
    (∀ {ownEpoch rest event s' epoch},
      s.phase (node, .reconciler) = .running ru (.unmount (some ownEpoch)) rest →
      Finds releasesCurrent s ((node, .reconciler), event) →
      (machine closed).step ((node, .reconciler), event) s = some s' →
      ((s.object ru).slots node).mount = some epoch → (s.object ru).Succeeded node epoch) ∧
    ∀ {rest event s'}, s'.phase (node, .reconciler) = .running ru (.unmount none) rest →
      (machine closed).step ((node, .reconciler), event) s = some s' →
      ∃ gs replicas, event = .view gs replicas ∧ placed ru gs replicas = false := by
  have conditions : ∀ {errand event p}, releasesCurrent errand event p = true →
      (marksFound errand event p = true ∧ ownCurrent errand event p = true) ∧
        flipsRecorded errand event p = true := by
    intro errand event p holds
    simpa only [releasesCurrent, Bool.and_eq_true] using holds
  have fine : (s.object ru).Accounted :=
    accounted_of_reaches reached (fun holds => (conditions holds).2) ru
  constructor
  · intro ownEpoch rest event s' epoch running permitted _ mounted
    obtain ⟨other, later, above, served⟩ := judges_of_reaches reached
      (fun holds => (conditions holds).1.1) (fun holds => (conditions holds).2) running
    have current : epoch ≤ ownEpoch := by
      have holds := (conditions (permitted.running running)).1.2
      simpa [ownCurrent, places, Cell.place, mounted] using holds
    exact fine.succeeded mounted served (current.trans_lt above)
  · intro rest event s' running stepped
    obtain ⟨object, phase, moved, rfl⟩ := Threads.of_step stepped
    simp only [Function.update_self] at running
    rcases of_program moved with ⟨-, -, errands, taken, rfl⟩ |
      ⟨ru', errand, rest', p, next, before, accessed, -, rfl⟩
    · cases isEntry_of_ofErrands (takeUp_isEntry taken) running
    cases next with
    | none =>
      have held := held_of_reaches reached (node, .reconciler)
      rw [before] at held
      cases isEntry_of_ofErrands held.2 running
    | some following =>
      cases running
      exact (Errand.of_step_unmount accessed).2

theorem abandoned_released_to_successor_judged :
    ∃ s s', (machine fun _ => false).Reaches (Finds releasesCurrent) initial s ∧
      s.phase (0, .reconciler) = .running (position 0) (.unmount (some 1)) [] ∧
      (machine fun _ => false).step ((0, .reconciler), .go) s = some s' ∧
      ((s.object (position 0)).slots 0).mount = some 1 ∧ (s.object (position 0)).Succeeded 0 1 := by
  obtain ⟨s, s', reached, stepped, running, mounted, current⟩ :=
    Machine.exists_step_of_run (machine fun _ => false) (Finds releasesCurrent)
      (List.flatten
        [acquires 0 .go, acquires 1 .go,
          [((0, .reconciler), .reconcile [] [] [position 0]), ((0, .reconciler), .go),
            ((0, .reconciler), .view calm.gs calm.replicas), ((0, .reconciler), .go),
            ((0, .reconciler), .go)]])
      ((0, .reconciler), .go) initial
      (fun s _ => s.phase (0, .reconciler) = .running (position 0) (.unmount (some 1)) [] ∧
        ((s.object (position 0)).slots 0).mount = some 1 ∧
        Finds releasesCurrent s ((0, .reconciler), .go))
      (by decide)
  exact ⟨s, s', reached, running, stepped, mounted,
    (abandoned_released_to_successor reached 0 (position 0)).1 running current stepped mounted⟩

/-- A marker that could not be written leaves the position without any: the pass then takes it
that the position has never been served, and releases the only mount there has been. -/
theorem abandoned_released_to_nobody :
    Unsucceeded (fun errand event p => ownCurrent errand event p && flipsRecorded errand event p)
      (.unmount (some 1)) 1 :=
  unsucceeded_of_run
    (List.flatten
      [acquires 0 (.fail false),
        [((0, .reconciler), .reconcile [] [] [position 0]), ((0, .reconciler), .go),
          ((0, .reconciler), .view calm.gs calm.replicas), ((0, .reconciler), .go),
          ((0, .reconciler), .go)]])
    (by decide)

theorem abandoned_released_to_itself :
    Unsucceeded (fun errand event p => marksFound errand event p && flipsRecorded errand event p)
      (.unmount (some 1)) 2 :=
  unsucceeded_of_run
    (List.flatten
      [[((0, .prompt 0), .desire [position 0]), ((0, .prompt 0), .go), ((0, .prompt 0), .go)],
        acquires 0 .go,
        [((0, .reconciler), .reconcile [] [] [position 0]), ((0, .reconciler), .go),
          ((0, .reconciler), .view calm.gs calm.replicas), ((0, .reconciler), .go)],
        [((0, .op 0), .fetch (position 0)), ((0, .op 0), .go), ((0, .prompt 0), .go)],
        List.replicate 7 ((0, .acquire (position 0)), .go), [((0, .reconciler), .go)]])
    (by decide)

end Abandon

end Shale.Handoff
