import Shale.Handoff.Overlap

/-!
# What an access can do

Every access of an errand either changes nothing and tells the errand after it what it has read,
or changes one thing about the position. `Errand.Did` lists these changes with what the access
must have found, and everything that holds over whole runs is proved from the list.

What a goroutine knows about a position it knows only while no other goroutine takes it back:
`errands_invariant` is the rule for this.
-/

namespace Shale.Handoff

open Function

namespace Errand

variable {closed : Bool} {ru : ReplicaUnit} {errand : Errand} {next : Option Errand}
  {event : Event} {p p' : Place}

/-- What an access that changes nothing tells the errand after it. -/
def Learned (p : Place) (errand : Errand) (event : Event) : Errand → Prop
  | .place => p.slot.phase = none
  | .own | .ownDurable | .judge _ => errand = .place ∨ errand = .own ∨ errand = .ownDurable
  | .unmount none => errand = .place
  | .unmount (some ownEpoch) =>
    errand = .judge ownEpoch ∧ event = .go ∧ ∀ epoch, p.marker = some epoch → ownEpoch < epoch
  | .flipDurable => errand = .flipOwn ∧ p.slot.openEpoch = none
  | .publish epoch => errand = .flipDurable ∨ p.slot.openEpoch = some epoch
  | .orphan gateEpoch => p.slot.phase = some ⟨.draining, gateEpoch⟩
  | .poll gateEpoch => errand = .orphan gateEpoch
  | .release => ∃ gateEpoch epoch,
      errand = .poll gateEpoch ∧ p.marker = some epoch ∧ gateEpoch < epoch
  | .opening => errand = .redrive
  | .reclose => errand = .opening
  | .redrive => errand = .reopening
  | .reopening | .install _ | .announce _ => False
  | _ => True

def afterChange : Errand → Bool
  | .forget | .close | .flipEpoch | .start | .reclose | .reopening | .redrive | .install _
  | .announce _ | .finish => true
  | _ => false

/-- What an access does to the position, with what it must have found. -/
inductive Did (p : Place) : Errand → Event → Place → Option Errand → Prop
  | read {errand : Errand} {event : Event} {next : Option Errand}
      (silent : ∀ epoch, errand = .publish epoch ∨ errand = .announce epoch → event ≠ .go)
      (learned : ∀ after, next = some after → Learned p errand event after) :
      Did p errand event p next
  | reclaimed (loses : p.slot.loser = true) :
      Did p .reclaiming .go { p with slot := { p.slot with phase := none } } none
  | armed {gateEpoch : Nat} (mounted : p.slot.mount ≠ none) (settled : p.slot.phase = none) :
      Did p (.arm gateEpoch) .go
        { p with slot := { p.slot with phase := some ⟨.draining, gateEpoch⟩ } } none
  | flipped (gains : p.slot.gainer = true) :
      Did p .flip .go { p with slot := { p.slot with phase := none } } (some .flipEpoch)
  | begun : Did p .mark .go (beginAcquire p) (some .start)
  | started (free : p.slot.inFlight = false) :
      Did p .start .go { p with slot := { p.slot with inFlight := true } } none
  | finished : Did p .finish .go { p with slot := { p.slot with inFlight := false } } none
  | cleared {gateEpoch : Nat} (unmounted : p.slot.mount = none) :
      Did p (.orphan gateEpoch) .go { p with slot := { p.slot with phase := none } } none
  | released {gateEpoch : Nat} (draining : p.slot.phase = some ⟨.draining, gateEpoch⟩) :
      Did p .release .go
        { p with slot := { p.slot with mount := none, openEpoch := none, phase := none } }
        (some .close)
  | lapsed : Did p .release .go { p with slot := { p.slot with phase := none } } none
  | unmounted {ownEpoch : Option Nat} :
      Did p (.unmount ownEpoch) .go { p with slot := { p.slot with mount := none } } (some .forget)
  | forgot : Did p .forget .go { p with slot := { p.slot with openEpoch := none } } (some .close)
  | evicted {failed : Nat} (keeps : p.slot.loser = false) :
      Did p (.evict failed) .go
        { p with slot := { p.slot with mount := none, openEpoch := none } } none
  | shut {errand : Errand} {next : Option Errand}
      (at_close : errand = .close ∧ next = none ∨ errand = .reclose ∧ next = some .reopening ∨
        errand = .discard ∧ next = some .finish) :
      Did p errand .go p.closeUnit next
  | opened {errand : Errand} {epoch : Nat} (at_open : errand = .opening ∨ errand = .reopening)
      (free : p.handle = none) (above : p.durable < epoch) :
      Did p errand .go { p with handle := some epoch, durable := epoch } (some (.install epoch))
  | fenced {errand : Errand} {next : Option Errand}
      (at_open : errand = .opening ∧ next = some .reclose ∨
        errand = .reopening ∧ next = some .redrive) :
      Did p errand (.fail true) { p with durable := p.durable + 1 } next
  | installed {epoch : Nat} (keeps : p.slot.loser = false) :
      Did p (.install epoch) .go
        { p with slot :=
          { p.slot with openEpoch := some epoch, mount := some epoch, phase := none } }
        (some (.announce epoch))
  | published {epoch : Nat} : Did p (.publish epoch) .go (p.writeServingMarker epoch) none
  | announced {epoch : Nat} :
      Did p (.announce epoch) .go (p.writeServingMarker epoch) (some .finish)

theorem openAt_cases (refused : Errand) (p : Place) :
    openAt refused p = (p, some refused) ∨ ∃ epoch, p.handle = none ∧ p.durable < epoch ∧
      openAt refused p =
        ({ p with handle := some epoch, durable := epoch }, some (.install epoch)) := by
  unfold openAt
  split
  case h_1 epoch p' openedAt =>
    obtain ⟨free, above, rfl⟩ := Place.of_openUnit openedAt
    exact .inr ⟨epoch, free, above, rfl⟩
  case h_2 => exact .inl rfl

theorem Did.of_read (silent : ∀ epoch, errand ≠ .publish epoch ∧ errand ≠ .announce epoch)
    (learned : ∀ after, next = some after → Learned p errand event after) :
    Did p errand event p next :=
  .read (fun epoch writes => absurd writes (by simp [silent epoch])) learned

theorem did_openAt (refused : Errand) (at_open : errand = .opening ∨ errand = .reopening)
    (learned : Learned p errand .go refused)
    (stepped : openAt refused p = (p', next)) : Did p errand .go p' next := by
  rcases openAt_cases refused p with same | ⟨epoch, free, above, moved⟩
  · cases same.symm.trans stepped
    refine .of_read (by rcases at_open with rfl | rfl <;> simp) ?_
    rintro _ ⟨⟩
    exact learned
  · cases moved.symm.trans stepped
    exact .opened at_open free above

theorem did_go (stepped : errand.step closed ru p .go = some (p', next)) :
    Did p errand .go p' next := by
  cases errand <;>
    simp only [step, Option.some.injEq, Prod.mk.injEq, reduceCtorEq] at stepped
  -- reads of the table that settle by themselves what comes next
  case reclaim | drain | gateDurable | leave | ownDurable | flipDurable | acquire | fresh |
      unmarked | redrive =>
    obtain ⟨rfl, rfl⟩ := stepped
    refine .of_read (by simp) ?_
    grind [Learned]
  case gate | own | judge | flipOwn | check =>
    split at stepped <;>
    · cases stepped
      refine .of_read (by simp) ?_
      grind [Learned]
  case flipEpoch =>
    obtain ⟨rfl, rfl⟩ := stepped
    refine .of_read (by simp) ?_
    cases recorded : p.slot.openEpoch <;> grind [Learned]
  case poll gateEpoch =>
    obtain ⟨rfl, rfl⟩ := stepped
    refine .of_read (by simp) ?_
    cases marked : p.marker <;> grind [Learned, releasable]
  -- changes of the phase
  case reclaiming =>
    obtain ⟨rfl, rfl⟩ := stepped
    unfold reclaimDrainingPosition
    rcases p.slot.reclaimDrain_cases with same | ⟨-, loses, reclaimed⟩
    · rw [same]
      exact .of_read (by simp) (by simp)
    · rw [reclaimed]
      exact .reclaimed loses
  case arm gateEpoch =>
    split at stepped
    case h_1 slot armed =>
      obtain ⟨mounted, settled, rfl⟩ := Slot.armDrain_eq_some_iff.mp armed
      cases stepped
      exact .armed mounted settled
    case h_2 =>
      cases stepped
      exact .of_read (by simp) (by simp)
  case flip =>
    split at stepped
    case h_1 slot dropped =>
      obtain ⟨-, gains, -, rfl⟩ := Slot.of_dropStuckGainerPhase dropped
      cases stepped
      exact .flipped gains
    case h_2 =>
      cases stepped
      exact .of_read (by simp) (by simp)
  case mark =>
    obtain ⟨rfl, rfl⟩ := stepped
    exact .begun
  case orphan gateEpoch =>
    split at stepped
    case h_1 slot cleared =>
      obtain ⟨-, unmounted, rfl⟩ := Slot.of_clearOrphanedDrain cleared
      cases stepped
      exact .cleared unmounted
    case h_2 =>
      cases stepped
      exact .of_read (by simp) (by simp [Learned])
  -- the in-flight entry
  case start =>
    split at stepped
    case h_1 slot claimed =>
      obtain ⟨free, rfl⟩ := Slot.of_startAcquire claimed
      cases stepped
      exact .started free
    case h_2 =>
      cases stepped
      exact .of_read (by simp) (by simp)
  case finish =>
    obtain ⟨rfl, rfl⟩ := stepped
    exact .finished
  -- the mount
  case unmount =>
    obtain ⟨rfl, rfl⟩ := stepped
    exact .unmounted
  case forget =>
    obtain ⟨rfl, rfl⟩ := stepped
    exact .forgot
  case release =>
    obtain ⟨rfl, rfl⟩ := stepped
    rcases p.slot.releaseDrained_cases with
      ⟨removed, -, ⟨gateEpoch, draining⟩, after⟩ | ⟨kept, same | ⟨-, after⟩⟩
    · rw [removed, after]
      exact .released draining
    · rw [kept, same]
      exact .of_read (by simp) (by simp)
    · rw [kept, after]
      exact .lapsed
  case install opened =>
    obtain ⟨rfl, rfl⟩ := stepped
    rcases p.slot.installServing_cases closed opened with ⟨refused, same⟩ | ⟨out, keeps, after⟩
    · rw [refused, same]
      exact .of_read (by simp) (by simp [Learned])
    · rw [out, after]
      exact .installed keeps
  case evict failed =>
    obtain ⟨rfl, rfl⟩ := stepped
    rcases p.slot.evictIfSame_cases failed with same | ⟨keeps, -, after⟩
    · rw [same]
      exact .of_read (by simp) (by simp)
    · rw [after]
      exact .evicted keeps
  -- the store
  case close | reclose | discard =>
    obtain ⟨rfl, rfl⟩ := stepped
    exact .shut (by simp)
  case opening => exact did_openAt .reclose (.inl rfl) rfl stepped
  case reopening => exact did_openAt .redrive (.inr rfl) rfl stepped
  case publish =>
    obtain ⟨rfl, rfl⟩ := stepped
    exact .published
  case announce =>
    obtain ⟨rfl, rfl⟩ := stepped
    exact .announced

theorem did_fail {refused : Bool}
    (stepped : errand.step closed ru p (.fail refused) = some (p', next)) :
    Did p errand (.fail refused) p' next := by
  cases errand <;>
    simp only [step, Option.some.injEq, Prod.mk.injEq, reduceCtorEq] at stepped
  case opening | reopening =>
    obtain ⟨rfl, rfl⟩ := stepped
    cases refused
    · exact .of_read (by simp) (by simp [Learned])
    · exact .fenced (by simp)
  all_goals
    obtain ⟨rfl, rfl⟩ := stepped
    exact .read (by simp) (by simp [Learned])

theorem did_of_step (stepped : errand.step closed ru p event = some (p', next)) :
    Did p errand event p' next := by
  cases event with
  | go => exact did_go stepped
  | fail => exact did_fail stepped
  | view gs replicas =>
    cases errand <;> simp only [step, Option.some.injEq, Prod.mk.injEq, reduceCtorEq] at stepped
    obtain ⟨rfl, rfl⟩ := stepped
    refine .of_read (by simp) ?_
    grind [Learned]
  | _ => cases errand <;> cases stepped

end Errand

namespace Cell

variable {node : Nat} {errand : Errand} {event : Event} {next : Option Errand} {c : Cell}

theorem put_place (node : Nat) (c : Cell) : c.put node (c.place node) = c := by
  simp [put, place]

theorem after_read
    (silent : ∀ epoch, errand = .publish epoch ∨ errand = .announce epoch → event ≠ .go)
    (learned : ∀ following, next = some following →
      Errand.Learned (c.place node) errand event following) :
    c.after node errand event (c.place node) next = c := by
  have unserved : ∀ c' : Cell, c'.logServed node errand next = c' := by
    intro c'
    unfold logServed
    split
    · exact (learned _ rfl).elim
    · rfl
  have unmarked : ∀ c' : Cell, c'.logMarks node errand event = c' := by
    intro c'
    unfold logMarks
    split
    · exact absurd rfl (silent _ (.inl rfl))
    · exact absurd rfl (silent _ (.inr rfl))
    · rfl
  rw [after, unserved, unmarked, put_place]

theorem told_or_afterChange {p : Place} {following : Errand}
    (did : errand.Did (c.place node) event p (some following)) :
    c.after node errand event p (some following) = c ∧
        Errand.Learned (c.place node) errand event following ∨ following.afterChange = true := by
  cases did with
  | read silent learned => exact .inl ⟨after_read silent learned, learned following rfl⟩
  | shut at_close => rcases at_close with ⟨-, ⟨⟩⟩ | ⟨-, ⟨⟩⟩ | ⟨-, ⟨⟩⟩ <;> exact .inr rfl
  | fenced at_open => rcases at_open with ⟨-, ⟨⟩⟩ | ⟨-, ⟨⟩⟩ <;> exact .inr rfl
  | _ => exact .inr rfl

end Cell

namespace Errand

variable {closed : Bool} {ru : ReplicaUnit} {errand : Errand} {event : Event} {p p' : Place}

def isEntry : Errand → Bool
  | .reclaim | .drain | .leave _ | .flip | .acquire | .check | .fresh | .opening | .evict _ => true
  | _ => false

def IsOf (worker : Worker) (ru : ReplicaUnit) : Errand → Prop
  | .fresh | .unmarked => ∃ n, worker = .prompt n
  | .start => worker = .reconciler ∨ ∃ n, worker = .prompt n
  | .opening | .reclose | .reopening | .redrive | .install _ | .discard | .announce _ | .finish =>
    worker = .acquire ru
  | .evict _ => ∃ n, worker = .op n
  | _ => worker = .reconciler

theorem isOf_of_step {worker : Worker} {following : Errand}
    (stepped : errand.step closed ru p event = some (p', some following))
    (isOf : errand.IsOf worker ru) : following.IsOf worker ru := by
  revert stepped
  fun_cases step closed ru p errand event
  all_goals
  all_goals
    intros
    grind [IsOf, openAt_cases]

end Errand

theorem Errand.Did.phase_of_isOf {p p' : Place} {errand : Errand} {event : Event}
    {next : Option Errand} {worker : Worker} {ru : ReplicaUnit}
    (did : errand.Did p event p' next) (isOf : errand.IsOf worker ru)
    (apart : worker ≠ .reconciler) :
    p'.slot.phase = p.slot.phase ∨ p.slot.loser = false ∧ p'.slot.phase = none := by
  cases did with
  | reclaimed | armed | flipped | begun | cleared | released | lapsed => exact absurd isOf apart
  | installed keeps => exact .inr ⟨keeps, rfl⟩
  | _ => exact .inl rfl

/-- Every errand ahead is one of this goroutine, and those at later positions are at their
start. -/
def Phase.Held (worker : Worker) : Phase → Prop
  | .idle => True
  | .running ru errand rest =>
    errand.IsOf worker ru ∧ ∀ later ∈ rest, later.2.isEntry = true ∧ later.2.IsOf worker later.1

section Runs

variable {closed : Nat → Bool} {name : Nat × Worker} {event : Event} {s : State}
  {object : ReplicaUnit → Cell} {phase : Phase} {worker : Worker} {node : Nat}
  {cells : ReplicaUnit → Cell} {errands : List (ReplicaUnit × Errand)}
  {allowed : State → (Nat × Worker) × Event → Prop}

theorem of_program (moved : program closed name event s = some (object, phase)) :
    (s.phase name = .idle ∧ object = s.object ∧
      ∃ errands, takeUp name.1 s.object name.2 event = some errands ∧
        phase = .ofErrands errands) ∨
    ∃ ru errand rest p next, s.phase name = .running ru errand rest ∧
      errand.step (closed name.1) ru (places name.1 s ru) event = some (p, next) ∧
      object = update s.object ru ((s.object ru).after name.1 errand event p next) ∧
      phase = .next ru next rest := by
  unfold program at moved
  split at moved
  case h_1 idle =>
    obtain ⟨errands, taken, same⟩ := Option.map_eq_some_iff.mp moved
    cases same
    exact .inl ⟨idle, rfl, errands, taken, rfl⟩
  case h_2 ru errand rest running =>
    obtain ⟨⟨p, next⟩, stepped, same⟩ := Option.map_eq_some_iff.mp moved
    cases same
    exact .inr ⟨ru, errand, rest, p, next, running, stepped, rfl, rfl⟩

section

variable (all : ∀ later ∈ errands, later.2.isEntry = true ∧ later.2.IsOf worker later.1)
include all

theorem held_ofErrands :
    (Phase.ofErrands errands).Held worker := by
  cases errands with
  | nil => trivial
  | cons first rest =>
    exact ⟨(all first List.mem_cons_self).2,
      fun later member => all later (List.mem_cons_of_mem first member)⟩

theorem isEntry_of_ofErrands {ru : ReplicaUnit} {errand : Errand}
    {rest : List (ReplicaUnit × Errand)}
    (running : Phase.ofErrands errands = .running ru errand rest) : errand.isEntry = true := by
  cases errands with
  | nil => cases running
  | cons first _ =>
    cases running
    exact (all first List.mem_cons_self).1

end

variable {later : ReplicaUnit × Errand}

theorem mem_round {errand : ReplicaUnit → Option Errand} {keys : List ReplicaUnit}
    (mem : later ∈ round errand keys) :
    errand later.1 = some later.2 := by
  obtain ⟨ru, -, found⟩ := List.mem_filterMap.mp mem
  obtain ⟨first, held, rfl⟩ := Option.map_eq_some_iff.mp found
  exact held

theorem acquireErrand_isEntry (pass : Pass) (ru : ReplicaUnit) :
    (acquireErrand pass ru).isEntry = true ∧ (acquireErrand pass ru).IsOf .reconciler ru := by
  unfold acquireErrand
  split_ifs <;> exact ⟨rfl, rfl⟩

theorem passErrands_isEntry {pass : Pass} {order : List ReplicaUnit}
    (mem : later ∈ passErrands pass order) :
    later.2.isEntry = true ∧ later.2.IsOf .reconciler later.1 := by
  obtain ⟨ru, errand⟩ := later
  simp only [passErrands, List.mem_append] at mem
  rcases mem with ((mem | mem) | mem) | mem <;> have found := mem_round mem
  · simp only [reclaimErrand, Option.ite_none_right_eq_some, Option.some.injEq] at found
    obtain ⟨-, rfl⟩ := found
    exact ⟨rfl, rfl⟩
  · simp only [drainErrand] at found
    split_ifs at found <;> cases found <;> exact ⟨rfl, rfl⟩
  · simp only [pendingErrand] at found
    split_ifs at found
    cases found
    exact acquireErrand_isEntry pass ru
  · simp only [currentErrand] at found
    split_ifs at found
    cases found
    exact acquireErrand_isEntry pass ru

theorem takeUp_isEntry (taken : takeUp node cells worker event = some errands) :
    ∀ later ∈ errands, later.2.isEntry = true ∧ later.2.IsOf worker later.1 := by
  unfold takeUp at taken
  split at taken
  case h_1 =>
    cases taken
    exact fun later member => passErrands_isEntry member
  case h_2 =>
    cases taken
    intro later member
    obtain ⟨ru, -, rfl⟩ := List.mem_map.mp member
    exact ⟨rfl, rfl⟩
  case h_3 =>
    split_ifs at taken
    cases taken
    simp [Errand.isEntry, Errand.IsOf]
  case h_4 =>
    cases taken
    simp [Errand.isEntry, Errand.IsOf]
  case h_5 =>
    obtain ⟨mounted, -, rfl⟩ := Option.map_eq_some_iff.mp taken
    simp [Errand.isEntry, Errand.IsOf]
  case h_6 => cases taken

theorem held_of_reaches (reached : (machine closed).Reaches allowed initial s)
    (name : Nat × Worker) : (s.phase name).Held name.2 := by
  refine (Threads.invariant (fun _ => True) (fun name _ phase => phase.Held name.2) reached
    trivial (fun _ => trivial) ?_).2 name
  intro s name event object phase _ _ held _ moved
  refine ⟨trivial, ?_, fun other _ => held other⟩
  rcases of_program moved with ⟨-, -, errands, taken, rfl⟩ |
    ⟨ru, errand, rest, p, next, running, stepped, -, rfl⟩
  · exact held_ofErrands (takeUp_isEntry taken)
  · have mine := held name
    rw [running] at mine
    cases next with
    | none => exact held_ofErrands mine.2
    | some following => exact ⟨Errand.isOf_of_step stepped mine.1, mine.2⟩

theorem errands_invariant (good : Cell → Prop) (knows : Nat → Errand → Cell → Prop)
    (reached : (machine closed).Reaches allowed initial s) (first : good .empty)
    (entry : ∀ {node errand c}, errand.isEntry = true → knows node errand c)
    (kept : ∀ {s : State} {node worker event ru errand rest p next},
      (machine closed).Reaches allowed initial s → allowed s ((node, worker), event) →
      s.phase (node, worker) = .running ru errand rest → errand.IsOf worker ru →
      good (s.object ru) → knows node errand (s.object ru) →
      errand.Did (places node s ru) event p next →
        good ((s.object ru).after node errand event p next) ∧
        (∀ following, next = some following →
          knows node following ((s.object ru).after node errand event p next)) ∧
        ∀ {other watcher seen}, (other, watcher) ≠ (node, worker) →
          Errand.IsOf watcher ru seen → knows other seen (s.object ru) →
          knows other seen ((s.object ru).after node errand event p next)) :
    (∀ ru, good (s.object ru)) ∧ ∀ {name ru errand rest},
      s.phase name = .running ru errand rest → knows name.1 errand (s.object ru) := by
  have all := Threads.invariant (fun cells => ∀ ru, good (cells ru))
    (fun name cells phase => ∀ {ru errand rest}, phase = .running ru errand rest →
      knows name.1 errand (cells ru)) reached (fun _ => first) (fun _ => nofun) ?_
  · exact ⟨all.1, fun running => all.2 _ running⟩
  intro s name event object phase reached good knowing permitted moved
  obtain ⟨node, worker⟩ := name
  rcases of_program moved with ⟨-, rfl, errands, taken, rfl⟩ |
    ⟨ru, errand, rest, p, next, running, stepped, rfl, rfl⟩
  · exact ⟨good, fun running => entry (isEntry_of_ofErrands (takeUp_isEntry taken) running),
      fun other _ => knowing other⟩
  have mine := held_of_reaches reached (node, worker)
  rw [running] at mine
  obtain ⟨fine, told, left⟩ := kept reached permitted running mine.1 (good ru) (knowing _ running)
    (Errand.did_of_step stepped)
  refine ⟨fun ru' => ?_, ?_, fun other apart ru' errand' rest' running' => ?_⟩
  · by_cases same : ru' = ru
    · subst same
      rwa [update_self]
    · rw [update_of_ne same]
      exact good ru'
  · intro ru' errand' rest' running'
    cases next with
    | none => exact entry (isEntry_of_ofErrands mine.2 running')
    | some following =>
      cases running'
      rw [update_self]
      exact told _ rfl
  · by_cases same : ru' = ru
    · subst same
      rw [update_self]
      have theirs := held_of_reaches reached other
      rw [running'] at theirs
      exact left apart theirs.1 (knowing other running')
    · rw [update_of_ne same]
      exact knowing other running'

end Runs

end Shale.Handoff
