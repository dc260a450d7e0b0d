import Shale.Foundation.Collect
import Shale.Replication.WriteRefusal

/-!
# When the legs of a replicated write report

The fan-outs of a write with the times at which their legs report. `fanout` returns on the report
that decides it, or when its context ends; `putReshardDualWrite` waits for the fan-out to the
supplementary legs before it dispatches the authoritative ones; and `retryWriteThroughHandoff`
cancels the context of an attempt as soon as the attempt has returned.

What a leg meets is that of `WriteRefusal`, and the reports that a fan-out has counted when it
returns are here a consequence of the delays. A report that comes when the context has ended is
not counted.
-/

namespace Shale.WriteTiming

open List

open Collect (Collected NoLater arrived collect Ends Lasting)
open WriteRefusal (OpError WriteAttempt errUnitAcquiring)

/-- A leg: what it meets and when it reports, counted from its dispatch. Without a delay it is
silent for as long as its context lives. -/
structure Leg where
  meets : WriteRefusal.Leg
  delay : Option Nat

namespace Leg

def err (leg : Leg) : Option OpError := leg.meets.dispatchReplicaPutUnit.err

def report (leg : Leg) : LegReport :=
  match leg.err with
  | none => .ack
  | some err => if err.isTransientReplicaErr then .transient else .failed

end Leg

/-- The legs of a fan-out in the order in which they report, the silent ones last. -/
structure Legs where
  legs : List Leg
  ordered : legs.Pairwise (NoLater Leg.delay)

def Legs.none : Legs := ⟨[], .nil⟩

def Legs.decidedBy (legs : Legs) (required : Nat) (counted : List Leg) : Bool :=
  decided legs.legs.length required (counted.map Leg.report)

def fanout (start deadline required : Nat) (legs : Legs) : Collected Leg :=
  if legs.legs.isEmpty then ⟨start, []⟩
  else collect Leg.delay (legs.decidedBy required) start deadline [] legs.legs

def classify (w : Nat) (reports : List (Option OpError)) : WriteAttempt :=
  WriteRefusal.classifyWriteAttempt (reports.countP Option.isNone) w
    (reports.filterMap fun report => report.filter fun err => !err.isTransientReplicaErr)
    (reports.filterMap fun report => report.filter OpError.isTransientReplicaErr)

structure Dispatch where
  leg : Leg
  time : Nat

def Dispatch.reportedBy (d : Dispatch) (time : Nat) : Prop :=
  ∃ delay, d.leg.delay = some delay ∧ d.time + delay ≤ time

def Legs.dispatchAt (legs : Legs) (time : Nat) : List Dispatch :=
  legs.legs.map fun leg => ⟨leg, time⟩

structure Attempted where
  result : WriteAttempt
  supp : List Dispatch
  auth : List Dispatch
  returned : Nat

structure ReshardLegs where
  auth : Legs
  supp : Legs
  stableR : Nat
  placed : 0 < stableR

def fireSupplementary (start deadline : Nat) (supp : Legs) : Nat :=
  (fanout start deadline 1 supp).returned

def putReshardDualWrite (wc : WriteConsistency) (start deadline : Nat) (legs : ReshardLegs) :
    Attempted :=
  let fired := fireSupplementary start deadline legs.supp
  if legs.auth.legs.isEmpty then
    ⟨⟨some (errUnitAcquiring "Put"), false, false⟩, legs.supp.dispatchAt start, [], fired⟩
  else
    let w := requiredWriteAcks wc legs.stableR
    let gate := fanout fired deadline w legs.auth
    ⟨classify w (gate.counted.map Leg.err), legs.supp.dispatchAt start,
      legs.auth.dispatchAt fired, gate.returned⟩

inductive Route where
  | reshard (legs : ReshardLegs)
  | union (routed : Legs) (stableR : Nat) (placed : 0 < stableR)

def putReplicatedUnitAttempt (wc : WriteConsistency) (start deadline : Nat) : Route → Attempted
  | .reshard legs => putReshardDualWrite wc start deadline legs
  | .union routed stableR _ =>
    if routed.legs.isEmpty then
      ⟨⟨some (.status .unavailable false "shale: no replicas available for key"), false, false⟩,
        [], [], start⟩
    else
      let w := requiredWriteAcks wc stableR
      let gate := fanout start deadline w routed
      ⟨classify w (gate.counted.map Leg.err), [], routed.dispatchAt start, gate.returned⟩

/-- An attempt that the budget may leave time for, and the backoff after it. -/
structure Attempt where
  route : Route
  sleep : Nat

/-- One attempt under `TestingForceCleanCut`, else attempts for as long as the budget lasts. -/
inductive Retry where
  | cleanCut (route : Route)
  | budget (attempts : List Attempt)

/-- An attempt that has been made, and when it was started. -/
structure Ran where
  route : Route
  start : Nat

def retryFrom (wc : WriteConsistency) (deadline now : Nat) (lastErr : Option OpError) :
    List Attempt → Option OpError × List Ran
  | [] => (some (lastErr.getD (.status .unavailable false
      "shale: write timed out waiting for replicas to finish acquiring")), [])
  | attempt :: rest =>
    if deadline ≤ now then
      (some (lastErr.getD (.status .unavailable false
        "shale: write timed out waiting for replicas to finish acquiring")), [])
    else
      let made := putReplicatedUnitAttempt wc now deadline attempt.route
      if made.result.err.isNone || !made.result.retryable then
        (made.result.err, [⟨attempt.route, now⟩])
      else
        let kept := if !made.result.noLegEvidence || lastErr.isNone then made.result.err
          else lastErr
        if deadline ≤ made.returned then (kept, [⟨attempt.route, now⟩])
        else
          let later := retryFrom wc deadline (min (made.returned + attempt.sleep) deadline) kept
            rest
          (later.1, ⟨attempt.route, now⟩ :: later.2)

def putReplicatedUnit (wc : WriteConsistency) (now timeout : Nat) :
    Retry → Option OpError × List Ran
  | .cleanCut route =>
    ((putReplicatedUnitAttempt wc now (now + timeout) route).result.err, [⟨route, now⟩])
  | .budget attempts => retryFrom wc (now + timeout) now none attempts

section Fanout

variable {start deadline required time : Nat} {legs : Legs}

theorem report_eq_ack_iff {leg : Leg} : leg.report = .ack ↔ leg.err = none := by
  unfold Leg.report
  cases leg.err with
  | none => simp
  | some err =>
    dsimp only
    split <;> simp

theorem decidedBy_iff {counted : List Leg} :
    legs.decidedBy required counted = true ↔
      clampAcks required legs.legs.length ≤ (counted.map Leg.report).count .ack ∨
        legs.legs.length - clampAcks required legs.legs.length <
          (counted.map Leg.report).count .failed ∨ counted.length = legs.legs.length := by
  simp [Legs.decidedBy, decided, tally_eq, or_assoc]

theorem lasting_decidedBy (legs : Legs) (required : Nat) :
    Lasting (legs.decidedBy required) legs.legs := by
  intro fewer more within all decides
  rw [decidedBy_iff] at decides ⊢
  have acks := (within.map Leg.report).count_le .ack
  have errs := (within.map Leg.report).count_le .failed
  have length := within.length_le
  have most := all.length_le
  omega

theorem decidedBy_nil (some_leg : legs.legs ≠ []) : legs.decidedBy required [] = false := by
  have positive := length_pos_iff.mpr some_leg
  rw [← Bool.not_eq_true, decidedBy_iff]
  simp only [clampAcks, map_nil, count_nil, length_nil]
  omega

theorem fanout_ends (some_leg : legs.legs ≠ []) :
    Ends Leg.delay (legs.decidedBy required) start deadline legs.legs
      (fanout start deadline required legs) := by
  rw [fanout, if_neg (by simpa using some_leg)]
  exact Collect.collect_ends legs.ordered (decidedBy_nil some_leg) (by simp)

theorem start_le_fanout : start ≤ (fanout start deadline required legs).returned := by
  by_cases some_leg : legs.legs = []
  · simp [fanout, some_leg]
  · exact Collect.start_le_returned (fanout_ends some_leg)

theorem le_fanout_iff (some_leg : legs.legs ≠ [])
    (within : time ≤ deadline ∨ (fanout start deadline required legs).returned < deadline) :
    time ≤ (fanout start deadline required legs).returned ↔
      legs.decidedBy required (arrived Leg.delay start time legs.legs) = false :=
  Collect.le_returned_iff legs.ordered (lasting_decidedBy legs required) (fanout_ends some_leg)
    within

end Fanout

def Attempted.inTime (deadline : Nat) (made : Attempted) : List Leg :=
  (made.auth.filter fun d => decide (d.time < deadline)).map Dispatch.leg

/-- Two attempts return the same and have dispatched the same authoritative legs in time. -/
structure SameGate (deadline : Nat) (made other : Attempted) : Prop where
  result : made.result = other.result
  inTime : made.inTime deadline = other.inTime deadline

def Legs.AtOnce (legs : Legs) : Prop :=
  legs.legs = [] ∨ (∃ leg ∈ legs.legs, leg.delay = some 0 ∧ leg.err = Option.none) ∨
    ∀ leg ∈ legs.legs, leg.delay = some 0

section Supplementary

variable {start deadline : Nat} {supp : Legs}

theorem mem_arrived_at_once {leg : Leg} {legs : List Leg} :
    leg ∈ arrived Leg.delay start (start + 1) legs ↔ leg ∈ legs ∧ leg.delay = some 0 := by
  rw [arrived, mem_filter, Collect.reportsBefore_iff]
  refine and_congr_right fun _ => ⟨?_, fun at_once => ⟨0, at_once, by omega⟩⟩
  rintro ⟨d, reports, before⟩
  rw [reports, show d = 0 by omega]

theorem one_le_count_ack_at_once :
    1 ≤ ((arrived Leg.delay start (start + 1) supp.legs).map Leg.report).count .ack ↔
      ∃ leg ∈ supp.legs, leg.delay = some 0 ∧ leg.err = none := by
  rw [Nat.one_le_iff_ne_zero, ← Nat.pos_iff_ne_zero, count_pos_iff, mem_map]
  simp only [mem_arrived_at_once, report_eq_ack_iff, and_assoc]

theorem length_arrived_at_once :
    (arrived Leg.delay start (start + 1) supp.legs).length = supp.legs.length ↔
      ∀ leg ∈ supp.legs, leg.delay = some 0 := by
  rw [arrived, length_filter_eq_length_iff]
  refine forall₂_congr fun leg member => ?_
  have at_once : leg ∈ arrived Leg.delay start (start + 1) supp.legs ↔
      leg ∈ supp.legs ∧ leg.delay = some 0 := mem_arrived_at_once
  rw [arrived, mem_filter] at at_once
  simpa [member] using at_once

theorem decidedBy_one_iff (some_leg : supp.legs ≠ []) :
    supp.decidedBy 1 (arrived Leg.delay start (start + 1) supp.legs) = true ↔ supp.AtOnce := by
  have positive := length_pos_iff.mpr some_leg
  have bar : clampAcks 1 supp.legs.length = 1 := by
    unfold clampAcks
    omega
  have failures : ((arrived Leg.delay start (start + 1) supp.legs).map Leg.report).count .failed ≤
      (arrived Leg.delay start (start + 1) supp.legs).length := by
    simpa using count_le_length
      (l := (arrived Leg.delay start (start + 1) supp.legs).map Leg.report) (a := .failed)
  have most : (arrived Leg.delay start (start + 1) supp.legs).length ≤ supp.legs.length :=
    length_filter_le ..
  rw [decidedBy_iff, bar, one_le_count_ack_at_once, Legs.AtOnce]
  constructor
  · rintro (ack | failed | all)
    · exact .inr (.inl ack)
    · -- one ack is enough, so it takes as many failures as there are legs
      have everyone : (arrived Leg.delay start (start + 1) supp.legs).length =
          supp.legs.length := by omega
      exact .inr (.inr (length_arrived_at_once.mp everyone))
    · exact .inr (.inr (length_arrived_at_once.mp all))
  · rintro (empty | ack | all)
    · exact absurd empty some_leg
    · exact .inl ack
    · exact .inr (.inr (length_arrived_at_once.mpr all))

theorem fireSupplementary_eq_iff (alive : start < deadline) :
    fireSupplementary start deadline supp = start ↔ supp.AtOnce := by
  by_cases some_leg : supp.legs = []
  · simp [fireSupplementary, fanout, some_leg, Legs.AtOnce]
  · have waits : start + 1 ≤ fireSupplementary start deadline supp ↔ ¬ supp.AtOnce := by
      rw [← decidedBy_one_iff some_leg, Bool.not_eq_true]
      exact le_fanout_iff some_leg (.inl alive)
    have from_start : start ≤ fireSupplementary start deadline supp := start_le_fanout
    rw [← not_iff_not, ← waits]
    omega

theorem fanout_of_ended {required : Nat} {legs : Legs} (ended : deadline ≤ start) :
    (fanout start deadline required legs).counted = [] := by
  by_cases some_leg : legs.legs = []
  · simp [fanout, some_leg]
  · have ends : Ends Leg.delay (legs.decidedBy required) start deadline legs.legs
        (fanout start deadline required legs) := fanout_ends some_leg
    generalize fanout start deadline required legs = result at ends
    cases ends with
    | decided _ _ inTime => omega
    | expired =>
      refine filter_eq_nil_iff.mpr fun leg _ => ?_
      rw [Collect.reportsBefore_iff]
      rintro ⟨d, -, before⟩
      omega

variable {stableR : Nat} {auth : Legs}

theorem inTime_dispatchAt {result : WriteAttempt} {supp : List Dispatch} {time returned : Nat} :
    (⟨result, supp, auth.dispatchAt time, returned⟩ : Attempted).inTime deadline =
      if time < deadline then auth.legs else [] := by
  unfold Attempted.inTime Legs.dispatchAt
  by_cases early : time < deadline <;> simp [early, filter_map, Function.comp_def]

def ackAfter (delay : Nat) : Leg := ⟨.self (some ⟨none, .ok true, none, .done⟩), some delay⟩

def Legs.single (leg : Leg) : Legs := ⟨[leg], pairwise_singleton _ _⟩

theorem fanout_single_ack (required delay : Nat) :
    fanout start deadline required (.single (ackAfter delay)) =
      if start + delay < deadline then ⟨start + delay, [ackAfter delay]⟩
      else ⟨max start deadline, []⟩ := by
  have decides : (Legs.single (ackAfter delay)).decidedBy required [ackAfter delay] = true :=
    decidedBy_iff.mpr (.inr (.inr rfl))
  have collects : fanout start deadline required (.single (ackAfter delay)) =
      if start + delay < deadline then
        if (Legs.single (ackAfter delay)).decidedBy required [ackAfter delay] then
          ⟨start + delay, [ackAfter delay]⟩
        else ⟨max start deadline, [ackAfter delay]⟩
      else ⟨max start deadline, []⟩ := rfl
  rw [collects, if_pos decides]

theorem putReshardDualWrite_eq (wc : WriteConsistency) (start deadline : Nat) (supp : Legs)
    (placed : 0 < stableR) (some_leg : auth.legs ≠ []) :
    putReshardDualWrite wc start deadline ⟨auth, supp, stableR, placed⟩ =
      ⟨classify (requiredWriteAcks wc stableR)
          ((fanout (fireSupplementary start deadline supp) deadline
            (requiredWriteAcks wc stableR) auth).counted.map Leg.err),
        supp.dispatchAt start, auth.dispatchAt (fireSupplementary start deadline supp),
        (fanout (fireSupplementary start deadline supp) deadline
          (requiredWriteAcks wc stableR) auth).returned⟩ := by
  simp [putReshardDualWrite, some_leg]

theorem missed_of_held_up (alive : start < deadline)
    (late : start < fireSupplementary start deadline supp) :
    ¬ SameGate deadline (putReshardDualWrite .one start deadline
        ⟨.single (ackAfter (deadline - start - 1)), supp, 1, Nat.one_pos⟩)
      (putReshardDualWrite .one start deadline
        ⟨.single (ackAfter (deadline - start - 1)), .none, 1, Nat.one_pos⟩) := by
  intro same
  have fires_none : fireSupplementary start deadline .none = start := rfl
  have some_leg : (Legs.single (ackAfter (deadline - start - 1))).legs ≠ [] :=
    cons_ne_nil _ _
  have result := same.result
  rw [putReshardDualWrite_eq _ _ _ _ _ some_leg, putReshardDualWrite_eq _ _ _ _ _ some_leg,
    fires_none, fanout_single_ack, fanout_single_ack, if_neg (by omega), if_pos (by omega)]
    at result
  have missed := (congrArg WriteAttempt.err result).trans rfl
  cases missed

theorem sameGate_of_not_held_up (wc : WriteConsistency) (placed : 0 < stableR) (auth : Legs)
    (prompt : deadline ≤ start ∨ fireSupplementary start deadline supp = start) :
    SameGate deadline (putReshardDualWrite wc start deadline ⟨auth, supp, stableR, placed⟩)
      (putReshardDualWrite wc start deadline ⟨auth, .none, stableR, placed⟩) := by
  by_cases some_leg : auth.legs = []
  · exact ⟨by simp [putReshardDualWrite, some_leg],
      by simp [putReshardDualWrite, some_leg, Attempted.inTime]⟩
  · have fires_none : fireSupplementary start deadline .none = start := rfl
    rw [putReshardDualWrite_eq _ _ _ _ _ some_leg, putReshardDualWrite_eq _ _ _ _ _ some_leg,
      fires_none]
    rcases prompt with ended | at_once
    · have from_start : start ≤ fireSupplementary start deadline supp := start_le_fanout
      constructor
      · rw [fanout_of_ended ended, fanout_of_ended (ended.trans from_start)]
      · rw [inTime_dispatchAt, inTime_dispatchAt, if_neg (by omega), if_neg (by omega)]
    · rw [at_once]
      exact ⟨rfl, rfl⟩

/-- **Supplementary legs gate a dual-write unless they are done at once.** It returns and
dispatches as it would without them, whatever the authoritative legs do, if and only if the fan-out
to them returns at once or the context had ended before the call. -/
theorem supplementary_gate_iff (supp : Legs) (start deadline : Nat) :
    (∀ (wc : WriteConsistency) (stableR : Nat) (placed : 0 < stableR) (auth : Legs),
      SameGate deadline (putReshardDualWrite wc start deadline ⟨auth, supp, stableR, placed⟩)
        (putReshardDualWrite wc start deadline ⟨auth, .none, stableR, placed⟩)) ↔
      deadline ≤ start ∨ supp.AtOnce := by
  constructor
  · intro same
    by_contra gated
    obtain ⟨alive, waits⟩ := not_or.mp gated
    have alive : start < deadline := Nat.not_le.mp alive
    have late : start < fireSupplementary start deadline supp :=
      Nat.lt_of_le_of_ne start_le_fanout fun at_once =>
        waits ((fireSupplementary_eq_iff alive).mp at_once.symm)
    exact missed_of_held_up alive late (same .one 1 Nat.one_pos _)
  · intro condition wc stableR placed auth
    refine sameGate_of_not_held_up wc placed auth ?_
    by_cases alive : start < deadline
    · exact .inr ((fireSupplementary_eq_iff alive).mpr (condition.resolve_left (by omega)))
    · exact .inl (Nat.not_lt.mp alive)

def silentLeg : Leg := ⟨.self none, none⟩

/-- One supplementary leg that stays silent uses up the whole attempt: no authoritative leg is
dispatched in time and the write fails, though every authoritative leg would have acked at once,
and with a supplementary leg that acks at once it succeeds. -/
theorem silent_supplementary_leg_gates :
    ((putReshardDualWrite .quorum 0 10
        ⟨.single (ackAfter 0), .single silentLeg, 1, by decide⟩).result.err.isSome = true ∧
      (putReshardDualWrite .quorum 0 10
        ⟨.single (ackAfter 0), .single silentLeg, 1, by decide⟩).inTime 10 = []) ∧
    (putReshardDualWrite .quorum 0 10
        ⟨.single (ackAfter 0), .single (ackAfter 0), 1, by decide⟩).result.err.isNone = true ∧
      (putReshardDualWrite .quorum 0 10
        ⟨.single (ackAfter 0), .single (ackAfter 0), 1, by decide⟩).inTime 10 = [ackAfter 0] :=
  ⟨⟨rfl, rfl⟩, rfl, rfl⟩

end Supplementary

namespace Route

def auth : Route → Legs
  | .reshard legs => legs.auth
  | .union routed _ _ => routed

def supp : Route → Legs
  | .reshard legs => legs.supp
  | .union .. => .none

def bar (wc : WriteConsistency) : Route → Nat
  | .reshard legs => requiredWriteAcks wc legs.stableR
  | .union _ stableR _ => requiredWriteAcks wc stableR

theorem bar_pos (wc : WriteConsistency) (route : Route) : 0 < route.bar wc := by
  cases route with
  | reshard legs => exact requiredWriteAcks_pos legs.placed
  | union routed stableR placed => exact requiredWriteAcks_pos placed

/-- When the authoritative legs are dispatched. -/
def gateStart (route : Route) (start deadline : Nat) : Nat :=
  fireSupplementary start deadline route.supp

def ReportsInTime (wc : WriteConsistency) (route : Route) (gate time : Nat) (leg : Leg) : Prop :=
  ∃ delay, leg.delay = some delay ∧
    route.auth.decidedBy (route.bar wc) (arrived Leg.delay gate (time + delay) route.auth.legs) =
      false

structure NoSurplus (wc : WriteConsistency) (start deadline : Nat) (route : Route) : Prop where
  supp : ∀ leg ∈ route.supp.legs,
    route.ReportsInTime wc (route.gateStart start deadline) start leg
  auth : ∀ leg ∈ route.auth.legs,
    route.ReportsInTime wc (route.gateStart start deadline) (route.gateStart start deadline) leg

theorem attempt_eq {route : Route} (wc : WriteConsistency) (start deadline : Nat)
    (some_leg : route.auth.legs ≠ []) :
    putReplicatedUnitAttempt wc start deadline route =
      ⟨classify (route.bar wc) ((fanout (route.gateStart start deadline) deadline (route.bar wc)
          route.auth).counted.map Leg.err),
        route.supp.dispatchAt start, route.auth.dispatchAt (route.gateStart start deadline),
        (fanout (route.gateStart start deadline) deadline (route.bar wc) route.auth).returned⟩ := by
  cases route with
  | reshard legs =>
    obtain ⟨auth, supp, stableR, placed⟩ := legs
    exact putReshardDualWrite_eq wc start deadline supp placed some_leg
  | union routed stableR placed =>
    have nonempty : routed.legs.isEmpty = false := by simpa [auth] using some_leg
    simp only [putReplicatedUnitAttempt, nonempty, Bool.false_eq_true, ↓reduceIte]
    rfl

end Route

/-- The context of an attempt, which is cancelled when the attempt has returned, is not cancelled
before the legs it was handed to have reported, or has expired by then. -/
def Ran.Uncancelled (wc : WriteConsistency) (deadline : Nat) (ran : Ran) : Prop :=
  deadline ≤ (putReplicatedUnitAttempt wc ran.start deadline ran.route).returned ∨
    ∀ d ∈ (putReplicatedUnitAttempt wc ran.start deadline ran.route).supp ++
        (putReplicatedUnitAttempt wc ran.start deadline ran.route).auth,
      d.reportedBy (putReplicatedUnitAttempt wc ran.start deadline ran.route).returned

section Surplus

variable {wc : WriteConsistency} {start deadline now : Nat} {route : Route}

theorem uncancelled_iff {ran : Ran} (some_leg : ran.route.auth.legs ≠ [])
    (inTime : (putReplicatedUnitAttempt wc ran.start deadline ran.route).returned < deadline) :
    ran.Uncancelled wc deadline ↔ ran.route.NoSurplus wc ran.start deadline := by
  unfold Ran.Uncancelled
  rw [Route.attempt_eq wc ran.start deadline some_leg] at inTime ⊢
  have reported : ∀ leg time, (⟨leg, time⟩ : Dispatch).reportedBy
      (fanout (ran.route.gateStart ran.start deadline) deadline (ran.route.bar wc)
        ran.route.auth).returned ↔
      ran.route.ReportsInTime wc (ran.route.gateStart ran.start deadline) time leg := by
    intro leg time
    refine exists_congr fun delay => and_congr_right fun _ => ?_
    exact le_fanout_iff some_leg (.inr inTime)
  constructor
  · intro uncancelled
    have all := uncancelled.resolve_left (by omega)
    constructor
    · intro leg member
      exact (reported leg _).mp (all ⟨leg, _⟩ (by simp [Legs.dispatchAt, member]))
    · intro leg member
      exact (reported leg _).mp (all ⟨leg, _⟩ (by simp [Legs.dispatchAt, member]))
  · intro none_surplus
    refine .inr fun d member => ?_
    rcases mem_append.mp member with supp | auth
    · obtain ⟨leg, own, rfl⟩ := mem_map.mp supp
      exact (reported leg _).mpr (none_surplus.supp leg own)
    · obtain ⟨leg, own, rfl⟩ := mem_map.mp auth
      exact (reported leg _).mpr (none_surplus.auth leg own)

theorem count_ack (counted : List Leg) :
    (counted.map Leg.report).count .ack = (counted.map Leg.err).countP Option.isNone := by
  induction counted with
  | nil => rfl
  | cons leg rest ih =>
    rw [map_cons, map_cons, count_cons, countP_cons, ih]
    have same : (leg.report == .ack) = leg.err.isNone := by
      rw [Bool.eq_iff_iff, beq_iff_eq, report_eq_ack_iff, Option.isNone_iff_eq_none]
    rw [same]

theorem acks_of_classify {w : Nat} {reports : List (Option OpError)}
    (acked : (classify w reports).err = none) : w ≤ reports.countP Option.isNone := by
  unfold classify WriteRefusal.classifyWriteAttempt at acked
  split at acked
  case isTrue met => exact met
  case isFalse =>
    split at acked
    · split at acked <;> cases acked
    · cases acked

theorem attempt_of_no_leg (no_leg : route.auth.legs = []) :
    (putReplicatedUnitAttempt wc start deadline route).result.err ≠ none ∧
      (putReplicatedUnitAttempt wc start deadline route).result.retryable = false := by
  cases route with
  | reshard legs =>
    have empty : legs.auth.legs = [] := no_leg
    simp [putReplicatedUnitAttempt, putReshardDualWrite, empty]
  | union routed stableR placed =>
    have empty : routed.legs = [] := no_leg
    simp [putReplicatedUnitAttempt, empty]

theorem returned_of_acked
    (acked : (putReplicatedUnitAttempt wc start deadline route).result.err = none) :
    route.auth.legs ≠ [] ∧
      (putReplicatedUnitAttempt wc start deadline route).returned < deadline := by
  have some_leg : route.auth.legs ≠ [] := fun no_leg => (attempt_of_no_leg no_leg).1 acked
  refine ⟨some_leg, ?_⟩
  rw [Route.attempt_eq wc start deadline some_leg] at acked ⊢
  have enough := acks_of_classify acked
  have ends : Ends Leg.delay (route.auth.decidedBy (route.bar wc))
      (route.gateStart start deadline) deadline route.auth.legs
      (fanout (route.gateStart start deadline) deadline (route.bar wc) route.auth) :=
    fanout_ends some_leg
  generalize fanout (route.gateStart start deadline) deadline (route.bar wc) route.auth = gate
    at ends enough
  cases ends with
  | decided _ _ inTime => exact inTime
  | expired undecided =>
    rw [← Bool.not_eq_true, decidedBy_iff, count_ack] at undecided
    have positive := route.bar_pos wc
    refine absurd (.inl ?_) undecided
    unfold clampAcks
    dsimp only at enough
    omega

theorem completed_of_success {attempts : List Attempt} {lastErr : Option OpError}
    (succeeded : (retryFrom wc deadline now lastErr attempts).1 = none) :
    ∀ ran ∈ (retryFrom wc deadline now lastErr attempts).2, ran.route.auth.legs ≠ [] ∧
      (putReplicatedUnitAttempt wc ran.start deadline ran.route).returned < deadline := by
  induction attempts generalizing now lastErr with
  | nil => cases succeeded
  | cons attempt rest ih =>
    unfold retryFrom at succeeded ⊢
    split at succeeded
    · cases succeeded
    case isFalse alive =>
      rw [if_neg alive]
      dsimp only at succeeded ⊢
      split at succeeded
      case isTrue ended =>
        rw [if_pos ended]
        intro ran mem
        obtain rfl := mem_singleton.mp mem
        exact returned_of_acked succeeded
      case isFalse retried =>
        rw [if_neg retried]
        obtain ⟨failed, retryable⟩ :
            (putReplicatedUnitAttempt wc now deadline attempt.route).result.err ≠ none ∧
              (putReplicatedUnitAttempt wc now deadline attempt.route).result.retryable =
                true := by simpa using retried
        have some_leg : attempt.route.auth.legs ≠ [] := fun no_leg => by
          rw [(attempt_of_no_leg no_leg).2] at retryable
          cases retryable
        split at succeeded
        case isTrue =>
          -- the budget is used up and the error that was kept is returned
          split at succeeded
          case isTrue => exact absurd succeeded failed
          case isFalse heard =>
            have earlier := (by simpa using heard : _ ∧ lastErr ≠ none).2
            exact absurd succeeded earlier
        case isFalse inTime =>
          rw [if_neg inTime]
          intro ran mem
          rcases mem_cons.mp mem with rfl | later
          · exact ⟨some_leg, Nat.not_le.mp inTime⟩
          · exact ih succeeded ran later

/-- **Surplus legs are cancelled.** For every replicated write that succeeds, whatever its legs and
their order: no leg has its context cancelled before it has reported, other than by the deadline,
if and only if no attempt has a surplus leg. -/
theorem surplus_uncancelled_iff {timeout : Nat} {retry : Retry}
    (succeeded : (putReplicatedUnit wc now timeout retry).1 = none) :
    (∀ ran ∈ (putReplicatedUnit wc now timeout retry).2, ran.Uncancelled wc (now + timeout)) ↔
      ∀ ran ∈ (putReplicatedUnit wc now timeout retry).2,
        ran.route.NoSurplus wc ran.start (now + timeout) := by
  have completed : ∀ ran ∈ (putReplicatedUnit wc now timeout retry).2,
      ran.route.auth.legs ≠ [] ∧
        (putReplicatedUnitAttempt wc ran.start (now + timeout) ran.route).returned <
          now + timeout := by
    cases retry with
    | cleanCut route =>
      intro ran member
      obtain rfl := mem_singleton.mp member
      exact returned_of_acked succeeded
    | budget attempts => exact completed_of_success succeeded
  refine forall₂_congr fun ran member => ?_
  obtain ⟨some_leg, inTime⟩ := completed ran member
  exact uncancelled_iff some_leg inTime

end Surplus

def slowThird : Route :=
  .union ⟨[ackAfter 1, ackAfter 2, ackAfter 5], by decide⟩ 3 (by decide)

theorem all_acks_uncancelled :
    (putReplicatedUnit .all 0 10 (.budget [⟨slowThird, 0⟩])).1 = none ∧
      ∀ ran ∈ (putReplicatedUnit .all 0 10 (.budget [⟨slowThird, 0⟩])).2,
        ran.Uncancelled .all 10 := by
  have succeeded : (putReplicatedUnit .all 0 10 (.budget [⟨slowThird, 0⟩])).1 = none := rfl
  refine ⟨succeeded, (surplus_uncancelled_iff succeeded).mpr fun ran member => ?_⟩
  obtain rfl := mem_singleton.mp member
  refine ⟨fun leg none_ => (by cases none_), fun leg own => ?_⟩
  obtain rfl | rfl | rfl : leg = ackAfter 1 ∨ leg = ackAfter 2 ∨ leg = ackAfter 5 := by
    simpa [slowThird, Route.auth] using own
  · exact ⟨1, rfl, rfl⟩
  · exact ⟨2, rfl, rfl⟩
  · exact ⟨5, rfl, rfl⟩

/-- With two of three acks required, the write returns with the second ack at time 2, and the
third leg, which would have acked at time 5, has its context cancelled then. -/
theorem slow_third_leg_cancelled :
    (putReplicatedUnit .quorum 0 10 (.budget [⟨slowThird, 0⟩])).1 = none ∧
      ¬ ∀ ran ∈ (putReplicatedUnit .quorum 0 10 (.budget [⟨slowThird, 0⟩])).2,
        ran.Uncancelled .quorum 10 := by
  refine ⟨rfl, fun uncancelled => ?_⟩
  have returned : (putReplicatedUnitAttempt .quorum 0 10 slowThird).returned = 2 := rfl
  rcases uncancelled ⟨slowThird, 0⟩ (mem_singleton_self _) with expired | reported
  · rw [returned] at expired
    omega
  · obtain ⟨delay, own, le⟩ := reported ⟨ackAfter 5, 0⟩ (by
      simp [slowThird, putReplicatedUnitAttempt, Legs.dispatchAt])
    cases own
    rw [returned] at le
    omega

end Shale.WriteTiming
