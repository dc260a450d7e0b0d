import Shale.Handoff.Accesses

/-!
# The handle that an acquire closes

An acquire whose open fails closes the position on the factory's handle and opens it again. The
close is meant for a handle that no mount points at: an acquire is started for positions that are
not mounted, and only one is in flight at a time. Between the look at the mount and the in-flight
entry, however, a whole acquire of the same position can come and go.
-/

namespace Shale.Handoff

open Machine

def startsUnmounted : Errand → Event → Place → Bool
  | .start, _, p => p.slot.inFlight || p.slot.mount.isNone
  | _, _, _ => true

namespace Errand

variable {p p' : Place} {errand : Errand} {event : Event} {next : Option Errand}
  {worker : Worker} {ru : ReplicaUnit}

def opens : Errand → Bool
  | .opening | .reclose | .reopening | .redrive | .install _ => true
  | _ => false

def ofAcquire : Errand → Bool
  | .opening | .reclose | .reopening | .redrive | .install _ | .discard | .announce _ | .finish =>
    true
  | _ => false

theorem IsOf.acquire {at_ru : ReplicaUnit} (isOf : errand.IsOf (.acquire ru) at_ru) :
    ru = at_ru ∧ errand.ofAcquire = true := by
  cases errand
  case opening | reclose | reopening | redrive | install | discard | announce | finish =>
    cases isOf
    exact ⟨rfl, rfl⟩
  case fresh | unmarked | evict => obtain ⟨_, ⟨⟩⟩ := isOf
  case start => rcases isOf with mine | ⟨_, mine⟩ <;> cases mine
  all_goals cases isOf

theorem Did.of_others (did : errand.Did p event p' next) (isOf : errand.IsOf worker ru)
    (apart : worker ≠ .acquire ru) :
    (p'.slot.mount = p.slot.mount ∨ p'.slot.mount = none) ∧
      (p'.slot.inFlight = p.slot.inFlight ∨
        errand = .start ∧ p.slot.inFlight = false ∧ p'.slot.mount = p.slot.mount) := by
  cases did with
  | installed | finished => exact absurd isOf apart
  | started free => exact ⟨.inl rfl, .inr ⟨rfl, free, rfl⟩⟩
  | released | unmounted | evicted => exact ⟨.inr rfl, .inl rfl⟩
  | _ => exact ⟨.inl rfl, .inl rfl⟩

theorem openAt_ne_none (refused : Errand) (p : Place) : (openAt refused p).2 ≠ none := by
  unfold openAt
  split <;> simp

theorem eq_finish_of_step {closed : Bool}
    (stepped : errand.step closed ru p event = some (p', none))
    (mine : errand.ofAcquire = true) : errand = .finish := by
  cases errand
  case finish => rfl
  case opening | reopening =>
    cases event with
    | go => exact absurd (congrArg Prod.snd (Option.some.inj stepped)) (openAt_ne_none _ p)
    | _ => cases stepped
  case reclose | redrive | install | discard | announce => cases event <;> cases stepped
  all_goals cases mine

theorem Did.of_acquire {following : Errand} (did : errand.Did p event p' (some following))
    (isOf : errand.IsOf (.acquire ru) ru) (clear : errand.opens = true → p.slot.mount = none) :
    p'.slot.inFlight = p.slot.inFlight ∧ (following.opens = true → p'.slot.mount = none) := by
  cases did with
  | read _ learned =>
    refine ⟨rfl, fun opens => ?_⟩
    have told := learned following rfl
    cases following with
    | opening => exact clear (by rw [show errand = .redrive from told]; rfl)
    | reclose => exact clear (by rw [show errand = .opening from told]; rfl)
    | redrive => exact clear (by rw [show errand = .reopening from told]; rfl)
    | reopening | install => exact told.elim
    | _ => cases opens
  | shut at_close =>
    rcases at_close with ⟨-, ⟨⟩⟩ | ⟨rfl, ⟨⟩⟩ | ⟨rfl, ⟨⟩⟩
    · exact ⟨rfl, fun _ => clear rfl⟩
    · exact ⟨rfl, nofun⟩
  | opened at_open => rcases at_open with rfl | rfl <;> exact ⟨rfl, fun _ => clear rfl⟩
  | fenced at_open =>
    rcases at_open with ⟨rfl, ⟨⟩⟩ | ⟨rfl, ⟨⟩⟩ <;> exact ⟨rfl, fun _ => clear rfl⟩
  | installed | announced => exact ⟨rfl, nofun⟩
  | _ => cases isOf

end Errand

/-- What the acquire of a position knows at its phase: whoever is about to open the position
finds it in flight and not mounted. -/
def Phase.Clear (slot : Slot) : Phase → Prop
  | .idle => slot.inFlight = true → slot.mount = none
  | .running _ errand rest =>
    rest = [] ∧ slot.inFlight = true ∧ (errand.opens = true → slot.mount = none)

section Runs

variable {closed : Nat → Bool} {s : State} {p : Place} {errand : Errand} {event : Event}
  {next : Option Errand} {worker : Worker} {ru : ReplicaUnit} {phase : Phase} {slot slot' : Slot}

theorem Phase.Clear.mono (clear : phase.Clear slot)
    (mount : slot'.mount = slot.mount ∨ slot'.mount = none)
    (flying : slot'.inFlight = slot.inFlight) : phase.Clear slot' := by
  have unmounted : slot.mount = none → slot'.mount = none := by
    intro absent
    rcases mount with same | gone
    · rw [same, absent]
    · exact gone
  cases phase with
  | idle => exact fun inFlight => unmounted (clear (flying ▸ inFlight))
  | running ru errand rest =>
    exact ⟨clear.1, flying.trans clear.2.1, fun opens => unmounted (clear.2.2 opens)⟩

theorem Phase.Clear.across (clear : phase.Clear p.slot) {p' : Place}
    (did : errand.Did p event p' next) (isOf : errand.IsOf worker ru)
    (apart : worker ≠ .acquire ru) (unmounted : startsUnmounted errand event p = true) :
    phase.Clear p'.slot := by
  obtain ⟨mount, flying | ⟨rfl, free, same⟩⟩ := did.of_others isOf apart
  · exact clear.mono mount flying
  · -- the acquire cannot be running, since nobody has set the in-flight entry
    cases phase with
    | idle =>
      intro _
      rw [same]
      simpa [startsUnmounted, free] using unmounted
    | running => simp [clear.2.1] at free

theorem Phase.Clear.accessed {rest : List (ReplicaUnit × Errand)} {p' : Place} {shut : Bool}
    (clear : (Phase.running ru errand rest).Clear p.slot)
    (stepped : errand.step shut ru p event = some (p', next))
    (isOf : errand.IsOf (.acquire ru) ru) : (Phase.next ru next rest).Clear p'.slot := by
  obtain ⟨rfl, flying, opens⟩ := clear
  cases next with
  | none =>
    obtain rfl := Errand.eq_finish_of_step stepped isOf.acquire.2
    cases event with
    | go =>
      cases stepped
      exact nofun
    | _ => cases stepped
  | some following =>
    obtain ⟨same, kept⟩ := (Errand.did_of_step stepped).of_acquire isOf opens
    exact ⟨rfl, same.trans flying, kept⟩

theorem clear_of_reaches (reached : (machine closed).Reaches (Finds startsUnmounted) initial s)
    (node : Nat) (ru : ReplicaUnit) :
    (s.phase (node, .acquire ru)).Clear ((s.object ru).slots node) := by
  refine (Threads.invariant (fun _ => True) (fun name cells phase => ∀ ru,
    name.2 = .acquire ru → phase.Clear ((cells ru).slots name.1)) reached trivial
    (fun _ _ _ => nofun) ?_).2 (node, .acquire ru) ru rfl
  intro s name event object phase reached _ clear permitted moved
  refine ⟨trivial, ?_⟩
  obtain ⟨node, worker⟩ := name
  rcases of_program moved with ⟨idle, rfl, errands, taken, rfl⟩ |
    ⟨ru, errand, rest, p, next, running, stepped, rfl, rfl⟩
  · refine ⟨?_, fun other _ => clear other⟩
    rintro ru rfl
    have before := clear (node, .acquire ru) ru rfl
    rw [idle] at before
    cases event with
    | go =>
      obtain ⟨flying, rfl⟩ : ((s.object ru).slots node).inFlight = true ∧
          [(ru, Errand.opening)] = errands := by
        simpa [takeUp] using taken
      exact ⟨rfl, flying, fun _ => before flying⟩
    | _ => cases taken
  have held := held_of_reaches reached (node, worker)
  rw [running] at held
  refine ⟨?_, ?_⟩
  · rintro ru' rfl
    obtain ⟨rfl, -⟩ := held.1.acquire
    have before := clear (node, .acquire ru') ru' rfl
    rw [running] at before
    rw [Function.update_self, Cell.slots_after_self]
    exact Phase.Clear.accessed before stepped held.1
  · rintro ⟨other, watcher⟩ apart ru' rfl
    have before := clear (other, .acquire ru') ru' rfl
    by_cases same : ru' = ru
    case neg =>
      rw [Function.update_of_ne same]
      exact before
    subst same
    rw [Function.update_self]
    by_cases here : other = node
    · subst here
      rw [Cell.slots_after_self]
      exact before.across (p := places other s ru') (Errand.did_of_step stepped) held.1
        (fun mine => apart (congrArg (Prod.mk other) mine.symm)) (permitted.running running)
    · rw [Cell.slots_after_of_ne here]
      exact before

/-- If every acquire is started while its position is not mounted, then no acquire that closes the
position on its handle finds a mount that was opened through this handle. -/
theorem reclose_spares_mount
    (reached : (machine closed).Reaches (Finds startsUnmounted) initial s) (node : Nat)
    (ru : ReplicaUnit) {rest : List (ReplicaUnit × Errand)}
    (closing : s.phase (node, .acquire ru) = .running ru .reclose rest) :
    ¬ ∃ epoch, ((s.object ru).slots node).mount = some epoch ∧
      (s.object ru).handles node = some epoch := by
  have clear := clear_of_reaches reached node ru
  rw [closing] at clear
  rintro ⟨epoch, mounted, -⟩
  simp [clear.2.2 rfl] at mounted

/-- A second pass has listed the mounts while the first acquire is in flight, goes on when it is
over, and starts another one. The open is refused, since the handle has the position open, and the
acquire closes what the mount table holds. -/
theorem reclose_closes_mount :
    ∃ s s', (machine fun _ => false).Reaches anyAction initial s ∧
      s.phase (0, .acquire (position 0)) = .running (position 0) .reclose [] ∧
      ((s.object (position 0)).slots 0).mount = some 1 ∧
      (s.object (position 0)).handles 0 = some 1 ∧
      (machine fun _ => false).step ((0, .acquire (position 0)), .go) s = some s' ∧
      ((s'.object (position 0)).slots 0).mount = some 1 ∧
      (s'.object (position 0)).handles 0 = none := by
  obtain ⟨s, s', reached, stepped, closing, mounted, held, still, gone⟩ :=
    exists_step_of_run (machine fun _ => false) anyAction
      (List.flatten
        [[((0, .reconciler), .reconcile [position 0] [position 0] [])],
          List.replicate 3 ((0, .reconciler), .go), [((0, .acquire (position 0)), .go)],
          [((0, .reconciler), .reconcile [position 0] [position 0] [])],
          List.replicate 4 ((0, .acquire (position 0)), .go),
          List.replicate 3 ((0, .reconciler), .go),
          List.replicate 2 ((0, .acquire (position 0)), .go)])
      ((0, .acquire (position 0)), .go) initial
      (fun s s' => s.phase (0, .acquire (position 0)) = .running (position 0) .reclose [] ∧
        ((s.object (position 0)).slots 0).mount = some 1 ∧
        (s.object (position 0)).handles 0 = some 1 ∧
        ((s'.object (position 0)).slots 0).mount = some 1 ∧
        (s'.object (position 0)).handles 0 = none)
      (by decide)
  exact ⟨s, s', reached, closing, mounted, held, stepped, still, gone⟩

theorem reclose_spares_mount_evicted :
    ∃ s, (machine fun _ => false).Reaches (Finds startsUnmounted) initial s ∧
      s.phase (0, .acquire (position 0)) = .running (position 0) .reclose [] ∧
      (s.object (position 0)).handles 0 = some 1 ∧
      ¬ ∃ epoch, ((s.object (position 0)).slots 0).mount = some epoch ∧
        (s.object (position 0)).handles 0 = some epoch := by
  obtain ⟨s, reached, closing, held⟩ :=
    exists_reaches_of_run (machine fun _ => false) (Finds startsUnmounted)
      (List.flatten
        [acquires 0 .go, [((0, .op 0), .fetch (position 0)), ((0, .op 0), .go)],
          [((0, .reconciler), .reconcile [position 0] [position 0] [])],
          List.replicate 3 ((0, .reconciler), .go),
          List.replicate 2 ((0, .acquire (position 0)), .go)])
      initial
      (fun s => s.phase (0, .acquire (position 0)) = .running (position 0) .reclose [] ∧
        (s.object (position 0)).handles 0 = some 1)
      (by decide)
  exact ⟨s, reached, closing, held, reclose_spares_mount reached 0 (position 0) closing⟩

end Runs

end Shale.Handoff
