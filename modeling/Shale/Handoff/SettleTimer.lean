import Mathlib.Data.List.Basic
import Shale.Foundation.Machine

/-!
# The settle timer

A change of the ring arms a timer whose callback runs one reconcile pass, and `settlePending`
counts the passes that are still owed. `scheduleReconcileIn` stops the timer it replaces and asks
`decide.SettleArm` whether the obligation of that timer is inherited. The callback clears the
timer reference, which may be that of a newer timer, so that timers run that nothing refers to.

The counter is exact all the same. A debounced arm does not postpone an immediate one as long as
the immediate pass has not begun, no delay is negative and `Close` has not stopped the timer.
-/

namespace Shale.Settle

open Machine

structure SettleState where
  armed : Bool
  fired : Bool
  immediate : Bool

structure SettleArmDecision where
  delay : Int
  immediate : Bool
  newObligation : Bool

def settleArm (cur : SettleState) (requested : Int) : SettleArmDecision :=
  if cur.armed ∧ cur.fired = false then
    if cur.immediate ∧ requested > 0 then ⟨0, true, false⟩
    else ⟨requested, decide (requested = 0), false⟩
  else ⟨requested, decide (requested = 0), true⟩

/-- What has become of a timer. Its callback, once fired, clears the reference, runs its pass
and releases. -/
inductive Stage where
  | live
  | stopped
  | fired
  | cleared
  | passing
  | released
deriving DecidableEq

namespace Stage

/-- The callback has begun and has not released. -/
def unreleased (stage : Stage) : Bool :=
  decide (stage = fired ∨ stage = cleared ∨ stage = passing)

def toPass (stage : Stage) : Bool := decide (stage = fired ∨ stage = cleared)

def begun (stage : Stage) : Bool := decide (stage = passing ∨ stage = released)

end Stage

structure Timer where
  delay : Int
  stage : Stage
deriving DecidableEq

def moveTimer (timers : List Timer) (i : Nat) (source target : Stage) : Option (List Timer) :=
  match timers[i]? with
  | some timer =>
    if timer.stage = source then some (timers.set i { timer with stage := target }) else none
  | none => none

section Move

variable {timers timers' : List Timer} {i : Nat} {source target : Stage}

theorem of_moveTimer (moved : moveTimer timers i source target = some timers') :
    ∃ delay, timers[i]? = some ⟨delay, source⟩ ∧ timers' = timers.set i ⟨delay, target⟩ := by
  unfold moveTimer at moved
  split at moved
  case h_1 timer found =>
    split at moved
    case isTrue here => exact ⟨timer.delay, here ▸ found, (Option.some.inj moved).symm⟩
    case isFalse => cases moved
  case h_2 => cases moved

theorem countP_set_add {p : Timer → Bool} {timer : Timer} (found : timers[i]? = some timer)
    (next : Timer) :
    (timers.set i next).countP p + (if p timer then 1 else 0) =
      timers.countP p + if p next then 1 else 0 := by
  induction timers generalizing i with
  | nil => simp at found
  | cons head rest ih =>
    cases i with
    | zero =>
      obtain rfl : head = timer := by simpa using found
      simp only [List.set_cons_zero, List.countP_cons]
      omega
    | succ i =>
      have := ih (by simpa using found)
      simp only [List.set_cons_succ, List.countP_cons]
      omega

theorem countP_moveTimer (kind : Stage → Bool)
    (moved : moveTimer timers i source target = some timers') :
    timers'.countP (fun t => kind t.stage) + (if kind source then 1 else 0) =
      timers.countP (fun t => kind t.stage) + if kind target then 1 else 0 := by
  obtain ⟨delay, found, rfl⟩ := of_moveTimer moved
  exact countP_set_add found ⟨delay, target⟩

theorem delay_moveTimer (moved : moveTimer timers i source target = some timers') {j : Nat}
    {timer : Timer} (found : timers[j]? = some timer) :
    ∃ stage, timers'[j]? = some ⟨timer.delay, stage⟩ ∧
      (stage = timer.stage ∨ j = i ∧ timer.stage = source ∧ stage = target) := by
  obtain ⟨delay, here, rfl⟩ := of_moveTimer moved
  by_cases same : i = j
  · subst same
    cases here.symm.trans found
    have inside := (List.getElem?_eq_some_iff.mp here).1
    exact ⟨target, by simp [inside], .inr ⟨rfl, rfl, rfl⟩⟩
  · exact ⟨timer.stage, by simp [List.getElem?_set_ne same, found], .inl rfl⟩

end Move

/-- The fields that `settleMu` guards, the flag of `Close` and whether its timer section is still
to come, and the delays of the calls that have passed the check of the flag. -/
structure State where
  closed : Bool
  closing : Bool
  entering : List Int
  timers : List Timer
  settleTimer : Option Nat
  settleImmediate : Bool
  settlePending : Int
deriving DecidableEq

def initial : State := ⟨false, false, [], [], none, false, 0⟩

def State.stopTimer (s : State) : Bool × List Timer :=
  match s.settleTimer.bind fun i => moveTimer s.timers i .live .stopped with
  | some timers => (true, timers)
  | none => (false, s.timers)

def State.scheduleReconcileIn (s : State) (d : Int) : State :=
  let (stopped, timers) := s.stopTimer
  let armed := s.settleTimer.isSome
  let dec := settleArm ⟨armed, armed && !stopped, s.settleImmediate⟩ d
  { s with
    settlePending := if dec.newObligation then s.settlePending + 1 else s.settlePending
    settleImmediate := dec.immediate
    timers := timers ++ [⟨dec.delay, .live⟩]
    settleTimer := some timers.length }

/-- `enter` is the check of the flag by a call and `arm` its critical section; the next four are
steps of a timer and of its callback `runScheduledReconcile`; the last two are `Close`. -/
inductive Action where
  | enter (d : Int)
  | arm (call : Nat)
  | fire (i : Nat)
  | clear (i : Nat)
  | pass (i : Nat)
  | release (i : Nat)
  | close
  | stop
deriving DecidableEq

def step : Action → State → Option State
  | .enter d, s => some (if s.closed then s else { s with entering := d :: s.entering })
  | .arm call, s =>
    s.entering[call]?.map fun d =>
      { s.scheduleReconcileIn d with entering := s.entering.eraseIdx call }
  | .fire i, s =>
    (moveTimer s.timers i .live .fired).map fun timers => { s with timers := timers }
  | .clear i, s =>
    (moveTimer s.timers i .fired .cleared).map fun timers =>
      { s with timers := timers, settleTimer := none, settleImmediate := false }
  | .pass i, s =>
    (moveTimer s.timers i .cleared .passing).map fun timers => { s with timers := timers }
  | .release i, s =>
    (moveTimer s.timers i .passing .released).map fun timers =>
      { s with timers := timers, settlePending := s.settlePending - 1 }
  | .close, s => some (if s.closed then s else { s with closed := true, closing := true })
  | .stop, s =>
    if s.closing then
      some { s with
        closing := false
        timers := s.stopTimer.2
        settleTimer := none
        settlePending := if s.stopTimer.1 then s.settlePending - 1 else s.settlePending }
    else none

def machine : Machine State Action := ⟨step⟩

section Runs

variable {s s' : State} {action : Action}

theorem of_stopTimer (s : State) :
    s.stopTimer = (false, s.timers) ∨ ∃ i timers, s.settleTimer = some i ∧
      moveTimer s.timers i .live .stopped = some timers ∧ s.stopTimer = (true, timers) := by
  unfold State.stopTimer
  split
  case h_1 timers found =>
    obtain ⟨i, referred, moved⟩ := Option.bind_eq_some_iff.mp found
    exact .inr ⟨i, timers, referred, moved, rfl⟩
  case h_2 => exact .inl rfl

def owes (timer : Timer) : Bool := decide (timer.stage = .live) || timer.stage.unreleased

theorem countP_stopTimer (s : State) :
    s.stopTimer.2.countP owes + (if s.stopTimer.1 then 1 else 0) = s.timers.countP owes := by
  rcases of_stopTimer s with same | ⟨i, timers, -, moved, same⟩
  · rw [same]
    rfl
  · rw [same]
    exact countP_moveTimer (fun stage => decide (stage = .live) || stage.unreleased) moved

def State.decision (s : State) (d : Int) : SettleArmDecision :=
  settleArm ⟨s.settleTimer.isSome, s.settleTimer.isSome && !s.stopTimer.1, s.settleImmediate⟩ d

theorem decision_eq (s : State) (d : Int) :
    s.decision d =
      if s.stopTimer.1 then
        if s.settleImmediate ∧ d > 0 then ⟨0, true, false⟩ else ⟨d, decide (d = 0), false⟩
      else ⟨d, decide (d = 0), true⟩ := by
  unfold State.decision settleArm
  rcases of_stopTimer s with same | ⟨i, timers, referred, -, same⟩
  · cases armed : s.settleTimer.isSome <;> simp [same]
  · simp [same, referred]

def Counted (s : State) : Prop := s.settlePending = s.timers.countP owes

theorem step_counted (counted : Counted s) (stepped : machine.step action s = some s') :
    Counted s' := by
  unfold Counted at counted ⊢
  have move : ∀ {i source target timers}, moveTimer s.timers i source target = some timers →
      timers.countP owes + (if owes ⟨0, source⟩ then 1 else 0) =
        s.timers.countP owes + if owes ⟨0, target⟩ then 1 else 0 := fun moved =>
    countP_moveTimer (fun stage => decide (stage = .live) || stage.unreleased) moved
  have stop := countP_stopTimer s
  cases action with
  | enter d | close =>
    cases stepped
    split <;> exact counted
  | arm call =>
    obtain ⟨d, -, rfl⟩ := Option.map_eq_some_iff.mp stepped
    have fresh : (s.decision d).newObligation = !s.stopTimer.1 := by
      rw [decision_eq]
      split_ifs with stopped <;> simp [stopped]
    change (if (s.decision d).newObligation then s.settlePending + 1 else s.settlePending) =
      ((s.stopTimer.2 ++ [Timer.mk (s.decision d).delay .live]).countP owes : Int)
    rw [fresh, List.countP_append]
    cases stopped : s.stopTimer.1 <;> simp [stopped, owes] at stop ⊢ <;> omega
  | fire i | clear i | pass i | release i =>
    obtain ⟨timers, moved, rfl⟩ := Option.map_eq_some_iff.mp stepped
    have := move moved
    simp [owes, Stage.unreleased] at this
    dsimp only
    omega
  | stop =>
    obtain ⟨-, same⟩ := Option.ite_none_right_eq_some.mp stepped
    cases same
    cases stopped : s.stopTimer.1 <;> simp [stopped] at stop ⊢ <;> omega

theorem countP_owes (timers : List Timer) :
    timers.countP owes = timers.countP (fun t => decide (t.stage = .live)) +
      timers.countP fun t => t.stage.unreleased := by
  induction timers with
  | nil => rfl
  | cons timer rest ih =>
    obtain ⟨delay, stage⟩ := timer
    simp only [List.countP_cons, ih]
    cases stage <;> simp [owes, Stage.unreleased] <;> omega

def State.firedAt (s : State) (i : Nat) : Prop :=
  ∃ timer, s.timers[i]? = some timer ∧ (timer.stage.toPass || timer.stage.begun) = true

def State.immediateLive (s : State) : Prop :=
  ∃ i : Nat, s.timers[i]? = some ⟨0, .live⟩

def Flagged (s : State) : Prop :=
  ∀ i, s.settleTimer = some i →
    ∃ timer, s.timers[i]? = some timer ∧ (s.settleImmediate = true ↔ timer.delay = 0)

variable {call i : Nat}

theorem timers_arm (stepped : machine.step (.arm call) s = some s') :
    ∃ d, s.entering[call]? = some d ∧ s'.settleTimer = some s.stopTimer.2.length ∧
      s'.settleImmediate = (s.decision d).immediate ∧
      s'.timers = s.stopTimer.2 ++ [⟨(s.decision d).delay, .live⟩] := by
  obtain ⟨d, called, rfl⟩ := Option.map_eq_some_iff.mp stepped
  exact ⟨d, called, rfl, rfl, rfl⟩

theorem step_timer (stepped : machine.step action s = some s') {timer : Timer}
    (found : s.timers[i]? = some timer) :
    ∃ stage, s'.timers[i]? = some ⟨timer.delay, stage⟩ ∧
      (stage = timer.stage ∨
        timer.stage = .live ∧ (stage = .fired ∨ action = .stop ∨ ∃ call, action = .arm call) ∨
        timer.stage ≠ .live ∧ (stage.toPass || stage.begun) = true) := by
  have stop : ∃ stage, s.stopTimer.2[i]? = some ⟨timer.delay, stage⟩ ∧
      (stage = timer.stage ∨ timer.stage = .live) := by
    rcases of_stopTimer s with same | ⟨j, timers, -, moved, same⟩
    · rw [same]
      exact ⟨timer.stage, found, .inl rfl⟩
    · obtain ⟨stage, there, kept | ⟨-, left, -⟩⟩ := delay_moveTimer moved found
      · exact ⟨stage, same ▸ there, .inl kept⟩
      · exact ⟨stage, same ▸ there, .inr left⟩
  cases action with
  | enter d | close =>
    cases stepped
    refine ⟨timer.stage, ?_, .inl rfl⟩
    split <;> exact found
  | arm call =>
    obtain ⟨d, -, -, -, timers⟩ := timers_arm stepped
    obtain ⟨stage, there, kept⟩ := stop
    refine ⟨stage, ?_, kept.imp_right fun live => .inl ⟨live, .inr (.inr ⟨call, rfl⟩)⟩⟩
    rw [timers, List.getElem?_append_left (List.getElem?_eq_some_iff.mp there).1, there]
  | fire j | clear j | pass j | release j =>
    obtain ⟨timers, moved, rfl⟩ := Option.map_eq_some_iff.mp stepped
    obtain ⟨stage, there, kept | ⟨-, left, rfl⟩⟩ := delay_moveTimer moved found
    · exact ⟨stage, there, .inl kept⟩
    · exact ⟨_, there, .inr (by simp [left, Stage.toPass, Stage.begun])⟩
  | stop =>
    obtain ⟨-, same⟩ := Option.ite_none_right_eq_some.mp stepped
    cases same
    obtain ⟨stage, there, kept⟩ := stop
    exact ⟨stage, there, kept.imp_right fun live => .inl ⟨live, .inr (.inl rfl)⟩⟩

theorem step_firedAt (stepped : machine.step action s = some s') (fired : s.firedAt i) :
    s'.firedAt i := by
  obtain ⟨timer, found, kind⟩ := fired
  obtain ⟨stage, there, rfl | ⟨live, -⟩ | ⟨-, later⟩⟩ := step_timer stepped found
  · exact ⟨_, there, kind⟩
  · rw [live] at kind
    cases kind
  · exact ⟨_, there, later⟩

theorem step_flagged (flagged : Flagged s) (stepped : machine.step action s = some s') :
    Flagged s' := by
  have same : s'.settleTimer = s.settleTimer → s'.settleImmediate = s.settleImmediate →
      Flagged s' := by
    intro reference flag i referred
    obtain ⟨timer, found, kind⟩ := flagged i (reference ▸ referred)
    obtain ⟨stage, there, -⟩ := step_timer stepped found
    exact ⟨_, there, flag ▸ kind⟩
  cases action with
  | enter d | close =>
    cases stepped
    apply same <;> split <;> rfl
  | arm call =>
    obtain ⟨d, -, reference, flag, timers⟩ := timers_arm stepped
    intro i referred
    cases reference.symm.trans referred
    refine ⟨⟨(s.decision d).delay, .live⟩, by rw [timers]; simp, ?_⟩
    rw [flag, decision_eq]
    split_ifs <;> simp
  | fire j | pass j | release j =>
    obtain ⟨timers, -, rfl⟩ := Option.map_eq_some_iff.mp stepped
    exact same rfl rfl
  | clear j =>
    obtain ⟨timers, -, rfl⟩ := Option.map_eq_some_iff.mp stepped
    intro i referred
    cases referred
  | stop =>
    obtain ⟨-, stops⟩ := Option.ite_none_right_eq_some.mp stepped
    cases stops
    intro i referred
    cases referred

theorem immediateLive_of_zero (zero : s.entering[call]? = some 0)
    (stepped : machine.step (.arm call) s = some s') : s'.immediateLive := by
  obtain ⟨d, called, -, -, timers⟩ := timers_arm stepped
  cases zero.symm.trans called
  have delay : (s.decision 0).delay = 0 := by
    rw [decision_eq]
    split_ifs <;> rfl
  exact ⟨s.stopTimer.2.length, by simp [timers, delay]⟩

theorem immediateLive_arm (flagged : Flagged s) (live : s.timers[i]? = some ⟨0, .live⟩)
    (nonnegative : ∀ d, s.entering[call]? = some d → 0 ≤ d)
    (stepped : machine.step (.arm call) s = some s') : s'.immediateLive := by
  obtain ⟨d, called, -, -, timers⟩ := timers_arm stepped
  have early : s.stopTimer.2[i]? = some ⟨0, .live⟩ → s'.immediateLive := fun there => ⟨i, by
    rw [timers, List.getElem?_append_left (List.getElem?_eq_some_iff.mp there).1, there]⟩
  rcases of_stopTimer s with same | ⟨j, moved, referred, stopping, same⟩
  · exact early (by rw [same, live])
  · obtain ⟨stage, there, rfl | ⟨rfl, -, -⟩⟩ := delay_moveTimer stopping live
    · exact early (by rw [same, there])
    · -- the timer that was stopped is the immediate one, and the flag says so
      obtain ⟨timer, found, kind⟩ := flagged i referred
      cases live.symm.trans found
      have delay : (s.decision d).delay = 0 := by
        have := nonnegative d called
        rw [decision_eq, same, if_pos rfl, kind.mpr rfl]
        split_ifs with positive
        · rfl
        · have : ¬ d > 0 := fun more => positive ⟨rfl, more⟩
          dsimp only
          omega
      exact ⟨s.stopTimer.2.length, by simp [timers, delay]⟩

end Runs

def Undisturbed (s : State) (action : Action) : Prop :=
  action ≠ .stop ∧ ∀ call, action = .arm call → ∀ d, s.entering[call]? = some d → 0 ≤ d

/-- What holds after an immediate arm, whose state is `armed`: a zero-delay timer is live, or one
has fired since. -/
structure Pressing (armed s : State) : Prop where
  flagged : Flagged s
  fired : ∀ i, armed.firedAt i → s.firedAt i
  owed : s.immediateLive ∨ ∃ i, s.firedAt i ∧ ¬ armed.firedAt i

theorem Pressing.step {armed s s' : State} {action : Action} (pressing : Pressing armed s)
    (undisturbed : Undisturbed s action) (stepped : machine.step action s = some s') :
    Pressing armed s' where
  flagged := step_flagged pressing.flagged stepped
  fired i fired := step_firedAt stepped (pressing.fired i fired)
  owed := by
    rcases pressing.owed with ⟨i, live⟩ | ⟨i, fired, since⟩
    · obtain ⟨stage, there, rfl | ⟨-, rfl | rfl | ⟨call, rfl⟩⟩ | ⟨dead, -⟩⟩ :=
        step_timer stepped live
      · exact .inl ⟨i, there⟩
      · refine .inr ⟨i, ⟨_, there, rfl⟩, fun before => ?_⟩
        obtain ⟨timer, found, kind⟩ := pressing.fired i before
        cases live.symm.trans found
        cases kind
      · exact absurd rfl undisturbed.1
      · exact .inl (immediateLive_arm pressing.flagged live (undisturbed.2 call rfl) stepped)
      · exact absurd rfl dead
    · exact .inr ⟨i, step_firedAt stepped fired, since⟩

/-- **The obligations of the settle timers balance.** `settlePending` counts the live timers and
the callbacks that have not released. After an arm without a delay, unless `Close` or a negative
delay interferes, a timer or a callback owes the pass, or the pass has begun. -/
theorem settle_obligations_balance (s : State)
    (reached : machine.Reaches anyAction initial s) :
    (s.settlePending = s.timers.countP (fun t => decide (t.stage = .live)) +
        s.timers.countP (fun t => t.stage.unreleased) ∧ 0 ≤ s.settlePending) ∧
      ∀ (call : Nat) (armed later : State), s.entering[call]? = some 0 →
        machine.step (.arm call) s = some armed → machine.Reaches Undisturbed armed later →
        later.immediateLive ∨
          ∃ i timer, later.timers[i]? = some timer ∧ ¬ armed.firedAt i ∧
            (timer.stage.toPass = true ∨ timer.stage.begun = true) := by
  have counted : Counted s :=
    reached.invariant (show Counted initial from rfl) fun counted _ stepped =>
      step_counted counted stepped
  rw [Counted, countP_owes] at counted
  refine ⟨⟨by omega, by omega⟩, fun call armed later zero stepped continued => ?_⟩
  have flagged : Flagged s :=
    reached.invariant (fun i referred => by cases referred) fun flagged _ stepped =>
      step_flagged flagged stepped
  have pressing : Pressing armed later :=
    continued.invariant
      ⟨step_flagged flagged stepped, fun _ fired => fired,
        .inl (immediateLive_of_zero zero stepped)⟩
      fun pressing undisturbed stepped => pressing.step undisturbed stepped
  rcases pressing.owed with live | ⟨i, ⟨timer, found, kind⟩, since⟩
  · exact .inl live
  · exact .inr ⟨i, timer, found, since, Bool.or_eq_true_iff.mp kind⟩

def twoCalls : State := { initial with entering := [5, 0] }

def firstArmed : State := ⟨false, false, [5], [⟨0, .live⟩], some 0, true, 1⟩

def bothArmed : State := ⟨false, false, [], [⟨0, .stopped⟩, ⟨0, .live⟩], some 1, true, 1⟩

theorem settle_obligations_balance_debounced :
    bothArmed.immediateLive ∨
      ∃ i timer, bothArmed.timers[i]? = some timer ∧ ¬ firstArmed.firedAt i ∧
        (timer.stage.toPass = true ∨ timer.stage.begun = true) := by
  have reached : machine.Reaches anyAction initial twoCalls :=
    reaches_of_run
      (show machine.run anyAction [.enter 0, .enter 5] initial = some twoCalls by decide)
  refine (settle_obligations_balance twoCalls reached).2 1 firstArmed bothArmed rfl (by decide)
    (.tail .refl ⟨by decide, ?_⟩ (by decide : machine.step (.arm 0) firstArmed = _))
  intro call same d called
  cases same
  cases called
  decide

/-- An immediate arm has nothing left to show for it once its pass has run; when an arm at a
negative delay, which is not flagged immediate, comes between it and a debounced one; and when
`Close` stops its timer while a call that has passed the check of the flag is still to arm. -/
theorem immediate_arm_gone :
    (machine.run anyAction
      [.enter 0, .arm 0, .fire 0, .clear 0, .pass 0, .release 0, .enter 5, .arm 0] initial).map
        State.timers = some [⟨0, .released⟩, ⟨5, .live⟩] ∧
    (machine.run anyAction
      [.enter 0, .arm 0, .enter (-1), .arm 0, .enter 5, .arm 0] initial).map
        State.timers = some [⟨0, .stopped⟩, ⟨-1, .stopped⟩, ⟨5, .live⟩] ∧
    (machine.run anyAction [.enter 0, .enter 5, .arm 1, .close, .stop, .arm 0] initial).map
        State.timers = some [⟨0, .stopped⟩, ⟨5, .live⟩] := by
  decide

end Shale.Settle
