import Shale.Replication.Fanout
import Shale.Storage.Store

/-!
# What a write that is refused as acquiring has changed

`ErrAcquiring` (`reason.go`) promises a caller of `Put` or `Delete` that the refused operation
was not applied. The error is minted in three places: by a node that does not have the unit
mounted; by `withLocalWriteBackend`, which recodes every failure of the one copy's backend to
it; and by `classifyWriteAttempt`, which collapses the legs of a replicated write that missed
its ack bar into one error and keeps the reason that the refusing legs carried.

An operation is modelled by what it meets: which units are mounted, how the backends end each step,
which requests and replies are lost, and which reports a fan-out has counted when it returns.
-/

namespace Shale.WriteRefusal

/-- gRPC status codes. -/
inductive Code where
  | unavailable
  | resourceExhausted
  | failedPrecondition
  | unknown
  | other (name : String)

def Code.name : Code → String
  | .unavailable => "Unavailable"
  | .resourceExhausted => "ResourceExhausted"
  | .failedPrecondition => "FailedPrecondition"
  | .unknown => "Unknown"
  | .other name => name

/-- The errors of the write path: an `acquiringError`, tagged for the classifiers of its own
process; an error with a gRPC status, which may carry `ReasonAcquiring`; any other. -/
inductive OpError where
  | acquiring (message : String)
  | status (code : Code) (reason : Bool) (message : String)
  | plain (message : String)

namespace OpError

def text : OpError → String
  | .acquiring message => message
  | .status code _ message => "rpc error: code = " ++ code.name ++ " desc = " ++ message
  | .plain message => message

def isTransientReplicaErr : OpError → Bool
  | .acquiring _ => true
  | .status .resourceExhausted _ _ => true
  | _ => false

def isErrAcquiring : OpError → Bool
  | .acquiring _ => true
  | .status _ reason _ => reason
  | .plain _ => false

def recodeForwardedReplicaErr : OpError → OpError
  | .acquiring _ => .status .resourceExhausted true
      "cluster: forwarded replica write: unit mid-acquire (handoff window); retry shortly"
  | err => err

/-- What an error is on the other side of a call: only its status survives, and
`decodeRefusalReason` attaches the reason of its detail again. -/
def overWire : OpError → OpError
  | .acquiring message => .status .unavailable true message
  | .status code reason message => .status code reason message
  | .plain message => .status .unknown false message

end OpError

def errUnitAcquiringBecause (op cause : String) : OpError :=
  .acquiring ("cluster: " ++ op ++ ": unit for key is " ++ cause ++ "; retry shortly")

def errUnitAcquiring (op : String) : OpError :=
  errUnitAcquiringBecause op "handing off to this node"

def errClosed : OpError := .plain "backend: closed"

def errEmptyValue : OpError :=
  .plain "cluster: Put with empty value; use Delete to remove a key"

/-- The error a call returns, and whether it has changed a database. -/
structure Outcome where
  err : Option OpError
  modified : Bool

def Outcome.refused (o : Outcome) : Bool := o.err.any OpError.isErrAcquiring

inductive BackendError where
  | fenced (message : String)
  | other (message : String)

def BackendError.raw : BackendError → OpError
  | .fenced message => .plain message
  | .other message => .plain message

def fenceToTransient (op : String) : BackendError → OpError
  | .fenced _ => errUnitAcquiringBecause op "held at a stale epoch here (fenced by a newer owner)"
  | .other message => .plain message

/-- How a backend ends a write it was to make durable. A fenced writer has stored nothing;
a write that fails otherwise may have been stored all the same. -/
inductive Durable where
  | done
  | fenced (message : String)
  | failed (message : String) (stored : Bool)

def Durable.err : Durable → Option BackendError
  | .done => none
  | .fenced message => some (.fenced message)
  | .failed message _ => some (.other message)

def Durable.stored : Durable → Bool
  | .done => true
  | .fenced _ => false
  | .failed _ stored => stored

/-- How the fan-out counts what a leg reports. A `saturated` leg refuses without the reason. -/
inductive Report where
  | ack
  | acquiring
  | saturated
  | hard
deriving DecidableEq

def Report.of : Option OpError → Report
  | none => .ack
  | some err =>
    if err.isTransientReplicaErr then if err.isErrAcquiring then .acquiring else .saturated
    else .hard

def BackendError.report : BackendError → Report
  | .fenced _ => .acquiring
  | .other _ => .hard

def Durable.report (written : Durable) : Report := written.err.elim .ack BackendError.report

structure Apply where
  begin : Option BackendError
  compare : Except BackendError Bool
  put : Option BackendError
  commit : Durable

namespace Apply

def applyEnvelopesTx (a : Apply) : Outcome :=
  match a.begin with
  | some _ => ⟨some (errUnitAcquiring "Put"), false⟩
  | none =>
    match a.compare with
    | .error err => ⟨some (fenceToTransient "Put" err), false⟩
    | .ok false => ⟨a.commit.err.map (fenceToTransient "Put"), false⟩
    | .ok true =>
      match a.put with
      | some err => ⟨some (fenceToTransient "Put" err), false⟩
      | none => ⟨a.commit.err.map (fenceToTransient "Put"), a.commit.stored⟩

/-- The compare is won, and the commit stores. -/
def stores (a : Apply) : Bool :=
  a.begin.isNone && (match a.compare with | .ok wins => wins | .error _ => false) &&
    a.put.isNone && a.commit.stored

def report (a : Apply) : Report :=
  if a.begin.isSome then .acquiring
  else
    match a.compare with
    | .error err => err.report
    | .ok false => a.commit.report
    | .ok true => a.put.elim a.commit.report BackendError.report

theorem report_applyEnvelopesTx (a : Apply) : .of a.applyEnvelopesTx.err = a.report := by
  have fenced : ∀ err, Report.of (some (fenceToTransient "Put" err)) = err.report := by
    intro err
    cases err <;> rfl
  have durable : ∀ written : Durable,
      Report.of (written.err.map (fenceToTransient "Put")) = written.report := by
    intro written
    cases written <;> rfl
  obtain ⟨begin, compare, put, commit⟩ := a
  cases begin with
  | some => rfl
  | none =>
    rcases compare with err | wins
    · exact fenced err
    · cases wins with
      | false => exact durable commit
      | true =>
        cases put with
        | none => exact durable commit
        | some err => exact fenced err

theorem applyEnvelopesTx_modified (a : Apply) : a.applyEnvelopesTx.modified = a.stores := by
  obtain ⟨begin, compare, put, commit⟩ := a
  cases begin with
  | some err => rfl
  | none =>
    rcases compare with err | wins
    · rfl
    · cases wins
      · rfl
      · cases put <;> simp [applyEnvelopesTx, stores]

end Apply

def resolveAndApplyReplicaPut : Option Apply → Outcome
  | none => ⟨some (errUnitAcquiring "Put"), false⟩
  | some a => a.applyEnvelopesTx

/-- What one leg of a fan-out meets. The peer of a delivered request may be closed, and its
reply may be lost. -/
inductive Leg where
  | self (mount : Option Apply)
  | dialFailed (message : String)
  | undelivered (code : Code) (message : String)
  | peer (ready : Bool) (mount : Option Apply) (lost : Option (Code × String))

/-- The caller's side of a delivered call. -/
def Outcome.answered (o : Outcome) (lost : Option (Code × String)) : Outcome :=
  match lost with
  | some (code, message) => { o with err := some (.status code false message) }
  | none => { o with err := o.err.map OpError.overWire }

def localReplicaPutAt (ready : Bool) (mount : Option Apply) : Outcome :=
  if !ready then ⟨some errClosed, false⟩
  else
    let o := resolveAndApplyReplicaPut mount
    { o with err := o.err.map OpError.recodeForwardedReplicaErr }

namespace Leg

def dispatchReplicaPutUnit : Leg → Outcome
  | .self mount => resolveAndApplyReplicaPut mount
  | .dialFailed message => ⟨some (.plain message), false⟩
  | .undelivered code message => ⟨some (.status code false message), false⟩
  | .peer ready mount lost => (localReplicaPutAt ready mount).answered lost

def stores : Leg → Bool
  | .self (some a) => a.stores
  | .peer true (some a) _ => a.stores
  | _ => false

def report : Leg → Report
  | .self mount | .peer true mount none => mount.elim .acquiring Apply.report
  | .undelivered .resourceExhausted _ | .peer _ _ (some (.resourceExhausted, _)) => .saturated
  | _ => .hard

theorem report_dispatchReplicaPutUnit (leg : Leg) :
    .of leg.dispatchReplicaPutUnit.err = leg.report := by
  have mounted : ∀ mount : Option Apply,
      Report.of (resolveAndApplyReplicaPut mount).err = mount.elim .acquiring Apply.report := by
    intro mount
    cases mount with
    | none => rfl
    | some a => exact a.report_applyEnvelopesTx
  cases leg with
  | self mount => exact mounted mount
  | dialFailed => rfl
  | undelivered code => cases code <;> rfl
  | peer ready mount lost =>
    cases lost with
    | some lost =>
      obtain ⟨code, message⟩ := lost
      cases code <;> cases ready <;> rfl
    | none =>
      cases ready with
      | false => rfl
      | true =>
        -- neither the recoding nor the wire changes how the refusal is counted
        have carried : ∀ err : Option OpError,
            .of ((err.map OpError.recodeForwardedReplicaErr).map OpError.overWire) =
              Report.of err := by
          rintro (_ | (_ | _ | _)) <;> rfl
        exact (carried _).trans (mounted mount)

theorem dispatchReplicaPutUnit_modified (leg : Leg) :
    leg.dispatchReplicaPutUnit.modified = leg.stores := by
  cases leg with
  | self mount =>
    cases mount with
    | none => rfl
    | some a => exact a.applyEnvelopesTx_modified
  | dialFailed | undelivered => rfl
  | peer ready mount lost =>
    have kept : ((localReplicaPutAt ready mount).answered lost).modified =
        (localReplicaPutAt ready mount).modified := by
      cases lost <;> rfl
    rw [dispatchReplicaPutUnit, kept]
    cases ready with
    | false => rfl
    | true =>
      cases mount with
      | none => rfl
      | some a => exact a.applyEnvelopesTx_modified

end Leg

/-- One pass: the legs that gate the ack, in the order they report, of which `fanout` has
counted the first `counted` when it returns; the best-effort legs; and the size of the stable
placement. A placement is never empty (`View.writeRoute_auth_ne_nil`). -/
structure Pass where
  first : Leg
  others : List Leg
  counted : Nat
  supp : List Leg
  stableR : Nat

structure WriteAttempt where
  err : Option OpError
  retryable : Bool
  noLegEvidence : Bool

def legsCarryReason (legs : List OpError) : Bool := legs.any OpError.isErrAcquiring

def classifyWriteAttempt (acks w : Nat) (errs transient : List OpError) : WriteAttempt :=
  if w ≤ acks then ⟨none, false, false⟩
  else
    match errs with
    | [] =>
      let message := "shale: write needed " ++ toString w ++ " acks, got " ++ toString acks ++
        " (replicas mid-acquire)"
      if legsCarryReason transient then
        ⟨some (.status .unavailable true message), true, false⟩
      else ⟨some (.status .unavailable false message), true, transient.isEmpty⟩
    | firstErr :: _ =>
      let message := "shale: write needed " ++ toString w ++ " acks, got " ++ toString acks ++
        " (" ++ toString errs.length ++ " failures: " ++ firstErr.text ++ ")"
      ⟨some (.status .unavailable false message), false, false⟩

theorem classifyWriteAttempt_cases (acks w : Nat) (errs transient : List OpError) :
    w ≤ acks ∧ classifyWriteAttempt acks w errs transient = ⟨none, false, false⟩ ∨
      (acks < w ∧ errs = [] ∧ ∃ err,
        classifyWriteAttempt acks w errs transient = ⟨some err, true, transient.isEmpty⟩ ∧
        err.isErrAcquiring = legsCarryReason transient) ∨
      (acks < w ∧ errs ≠ [] ∧ ∃ err,
        classifyWriteAttempt acks w errs transient = ⟨some err, false, false⟩ ∧
        err.isErrAcquiring = false) := by
  unfold classifyWriteAttempt
  by_cases met : w ≤ acks
  · exact .inl ⟨met, if_pos met⟩
  · rw [if_neg met]
    cases errs with
    | nil =>
      refine .inr (.inl ⟨Nat.not_le.mp met, rfl, ?_⟩)
      by_cases carried : legsCarryReason transient = true
      · have heard : transient.isEmpty = false := by
          cases transient with
          | nil => cases carried
          | cons => rfl
        simp only [carried, heard, ↓reduceIte]
        exact ⟨_, rfl, rfl⟩
      · simp only [carried]
        exact ⟨_, rfl, rfl⟩
    | cons firstErr rest =>
      exact .inr (.inr ⟨Nat.not_le.mp met, List.cons_ne_nil _ _, _, rfl, rfl⟩)

namespace Pass

def auth (p : Pass) : List Leg := p.first :: p.others

def legs (p : Pass) : List Leg := p.auth ++ p.supp

def reports (p : Pass) : List (Option OpError) :=
  (p.auth.take p.counted).map fun leg => leg.dispatchReplicaPutUnit.err

def acks (p : Pass) : Nat := p.reports.countP Option.isNone

def errs (p : Pass) : List OpError :=
  p.reports.filterMap fun report => report.filter fun err => !err.isTransientReplicaErr

def transient (p : Pass) : List OpError :=
  p.reports.filterMap fun report => report.filter OpError.isTransientReplicaErr

def putReplicatedUnitAttempt (wc : WriteConsistency) (p : Pass) : WriteAttempt :=
  classifyWriteAttempt p.acks (requiredWriteAcks wc p.stableR) p.errs p.transient

def modified (p : Pass) : Bool := p.legs.any fun leg => leg.dispatchReplicaPutUnit.modified

end Pass

/-- How long the replicated write goes on: one pass under `TestingForceCleanCut`, else the
passes that the write budget leaves time for. -/
inductive Retry where
  | cleanCut (pass : Pass)
  | budget (passes : List Pass)

def retryFrom (wc : WriteConsistency) (lastErr : Option OpError) : List Pass → Outcome
  | [] =>
    ⟨some (lastErr.getD (.status .unavailable false
      "shale: write timed out waiting for replicas to finish acquiring")), false⟩
  | p :: rest =>
    let res := p.putReplicatedUnitAttempt wc
    if res.err.isNone || !res.retryable then ⟨res.err, p.modified⟩
    else
      let kept := if !res.noLegEvidence || lastErr.isNone then res.err else lastErr
      let o := retryFrom wc kept rest
      { o with modified := p.modified || o.modified }

def putReplicatedUnit (wc : WriteConsistency) : Retry → Outcome
  | .cleanCut p => ⟨(p.putReplicatedUnitAttempt wc).err, p.modified⟩
  | .budget passes => retryFrom wc none passes

def withLocalWriteBackend (op : String) : Option Durable → Outcome
  | none => ⟨some (errUnitAcquiring op), false⟩
  | some written =>
    ⟨(written.err.map (fenceToTransient op)).map fun _ => errUnitAcquiring op, written.stored⟩

/-- Who owns the one copy of a key, and what a call to the owner meets. A peer that does not
see itself as the owner refuses the forwarded call. -/
inductive Owner where
  | self (mount : Option Durable)
  | dialFailed (message : String)
  | undelivered (code : Code) (message : String)
  | peer (owns ready : Bool) (mount : Option Durable) (lost : Option (Code × String))

def localReplicaWrite (op : String) (owns ready : Bool) (mount : Option Durable) : Outcome :=
  if !owns then
    ⟨some (.status .failedPrecondition false
      ("shale: forwarding loop refused: " ++ op ++ ": this node is not a replica for the key")),
      false⟩
  else if !ready then ⟨some errClosed, false⟩
  else withLocalWriteBackend op mount

/-- The single-copy branch of `Put` and `Delete`. -/
def Owner.write (op : String) : Owner → Outcome
  | .self mount => withLocalWriteBackend op mount
  | .dialFailed message => ⟨some (.plain message), false⟩
  | .undelivered code message => ⟨some (.status code false message), false⟩
  | .peer owns ready mount lost => (localReplicaWrite op owns ready mount).answered lost

/-- Where a write goes: to the replicas of its unit, to the owner of its one copy, or to the
backend of a cluster without units. -/
inductive Target where
  | replicated (wc : WriteConsistency) (retry : Retry)
  | singleCopy (owner : Owner)
  | singleNode (written : Durable)

def Target.write (op : String) : Target → Outcome
  | .replicated wc retry => putReplicatedUnit wc retry
  | .singleCopy owner => owner.write op
  | .singleNode written => ⟨written.err.map BackendError.raw, written.stored⟩

def put (notReady : Bool) (value : Bytes) (target : Target) : Outcome :=
  if notReady then ⟨some errClosed, false⟩
  else if value.isEmpty then ⟨some errEmptyValue, false⟩
  else target.write "Put"

def delete (notReady : Bool) (target : Target) : Outcome :=
  if notReady then ⟨some errClosed, false⟩ else target.write "Delete"

def Outcome.Honest (o : Outcome) : Prop := o.refused = true → o.modified = false

instance (o : Outcome) : Decidable o.Honest := inferInstanceAs (Decidable (_ → _))

namespace Pass

/-- The legs whose reports the pass has counted. -/
def heard (p : Pass) : List Leg := p.auth.take p.counted

def hears (p : Pass) (report : Report) : Bool := p.heard.any fun leg => leg.report = report

/-- A pass after which the write goes on no longer: enough legs ack, or one fails for good. -/
def settled (wc : WriteConsistency) (p : Pass) : Bool :=
  decide (requiredWriteAcks wc p.stableR ≤ p.heard.countP fun leg => leg.report = .ack) ||
    p.hears .hard

def refused (p : Pass) : Bool := p.hears .acquiring || p.hears .saturated

def Untouched (p : Pass) : Prop := ∀ leg ∈ p.legs, leg.stores = false

theorem modified_eq_false_iff (p : Pass) : p.modified = false ↔ p.Untouched := by
  simp [modified, Untouched, Leg.dispatchReplicaPutUnit_modified]

variable {wc : WriteConsistency} {p : Pass}

theorem hears_iff {report : Report} :
    p.hears report = true ↔ ∃ err ∈ p.reports, .of err = report := by
  simp only [hears, heard, reports, List.any_eq_true, List.mem_map, exists_exists_and_eq_and,
    decide_eq_true_eq, Leg.report_dispatchReplicaPutUnit]

theorem acks_eq : p.acks = p.heard.countP fun leg => leg.report = .ack := by
  rw [acks, reports, List.countP_map, heard]
  congr 1
  funext leg
  rw [← leg.report_dispatchReplicaPutUnit, Function.comp_apply]
  cases leg.dispatchReplicaPutUnit.err with
  | none => rfl
  | some err => simp only [Report.of, Option.isNone_some]; grind

theorem errs_eq_nil_iff : p.errs = [] ↔ p.hears .hard = false := by
  rw [← Bool.not_eq_true, hears_iff, errs, List.filterMap_eq_nil_iff]
  simp only [not_exists, not_and]
  refine forall₂_congr fun err _ => ?_
  cases err with
  | none => simp [Report.of]
  | some err => simp only [Report.of, Option.filter_some]; grind

theorem isEmpty_transient : p.transient.isEmpty = !p.refused := by
  rw [Bool.eq_iff_iff, List.isEmpty_iff, Bool.not_eq_true', ← Bool.not_eq_true, refused,
    Bool.or_eq_true, hears_iff, hears_iff, transient, List.filterMap_eq_nil_iff]
  simp only [← exists_or, ← and_or_left, not_exists, not_and]
  refine forall₂_congr fun err _ => ?_
  cases err with
  | none => simp [Report.of]
  | some err => simp only [Report.of, Option.filter_some]; grind

theorem legsCarryReason_transient : legsCarryReason p.transient = p.hears .acquiring := by
  rw [Bool.eq_iff_iff, hears_iff]
  simp only [legsCarryReason, transient, List.any_eq_true, List.mem_filterMap,
    Option.filter_eq_some_iff]
  constructor
  · rintro ⟨err, ⟨_, heard, rfl, refuses⟩, reason⟩
    exact ⟨some err, heard, by simp [Report.of, refuses, reason]⟩
  · rintro ⟨_ | err, heard, counted⟩
    · cases counted
    · simp only [Report.of] at counted
      grind

theorem attempt_of_settled (ended : p.settled wc = true) :
    ((p.putReplicatedUnitAttempt wc).err.isNone ||
        !(p.putReplicatedUnitAttempt wc).retryable) = true ∧
      (p.putReplicatedUnitAttempt wc).err.any OpError.isErrAcquiring = false := by
  unfold putReplicatedUnitAttempt
  rcases classifyWriteAttempt_cases p.acks (requiredWriteAcks wc p.stableR) p.errs p.transient with
    ⟨-, acked⟩ | ⟨below, none, -⟩ | ⟨-, -, err, failed, unreasoned⟩
  · simp [acked]
  · rw [settled, ← acks_eq, errs_eq_nil_iff.mp none, Bool.or_false, decide_eq_true_eq] at ended
    omega
  · simp [failed, unreasoned]

theorem attempt_of_unsettled (missed : p.settled wc = false) :
    ∃ err, p.putReplicatedUnitAttempt wc = ⟨some err, true, !p.refused⟩ ∧
      err.isErrAcquiring = p.hears .acquiring := by
  obtain ⟨below, none⟩ : p.acks < requiredWriteAcks wc p.stableR ∧ p.errs = [] := by
    rw [acks_eq, errs_eq_nil_iff]
    simpa [settled] using missed
  rw [← isEmpty_transient, ← legsCarryReason_transient]
  rcases classifyWriteAttempt_cases p.acks (requiredWriteAcks wc p.stableR) p.errs p.transient with
    ⟨met, -⟩ | ⟨-, -, err, attempted, reason⟩ | ⟨-, some, -⟩
  · omega
  · exact ⟨err, attempted, reason⟩
  · exact absurd none some

end Pass

/-- The last pass in which a leg refuses hears no reason, or no pass hears a refusal. -/
def endsUnreasoned (passes : List Pass) : Bool :=
  (passes.filter Pass.refused).getLast?.all fun p => !p.hears .acquiring

theorem retryFrom_refused (wc : WriteConsistency) (lastErr : Option OpError) (passes : List Pass) :
    (retryFrom wc lastErr passes).refused =
      (!passes.any (Pass.settled wc) &&
        ((passes.filter Pass.refused).getLast?.map (Pass.hears · .acquiring)).getD
          (lastErr.any OpError.isErrAcquiring)) := by
  induction passes generalizing lastErr with
  | nil => cases lastErr <;> rfl
  | cons p rest ih =>
    cases missed : p.settled wc with
    | true =>
      obtain ⟨ended, unreasoned⟩ := Pass.attempt_of_settled missed
      rw [List.any_cons, missed, Bool.true_or, Bool.not_true, Bool.false_and, retryFrom]
      rw [if_pos ended]
      exact unreasoned
    | false =>
      obtain ⟨err, attempted, reason⟩ := Pass.attempt_of_unsettled missed
      have continued : (retryFrom wc lastErr (p :: rest)).refused =
          (retryFrom wc (if !!p.refused || lastErr.isNone then some err
            else lastErr) rest).refused := by
        simp only [retryFrom, attempted, Outcome.refused]
        rfl
      rw [continued, ih, List.any_cons, missed, Bool.false_or]
      congr 1
      cases heard : p.refused with
      | true =>
        rw [List.filter_cons_of_pos heard, List.getLast?_cons]
        cases (rest.filter Pass.refused).getLast? <;> simp [reason]
      | false =>
        -- without a refusal there is no reason to carry, so none is lost or gained
        rw [List.filter_cons_of_neg (by simp [heard])]
        have silent : p.hears .acquiring = false := by
          simp only [Pass.refused, Bool.or_eq_false_iff] at heard
          exact heard.1
        cases lastErr <;> simp [reason, silent]

theorem retryFrom_modified {wc : WriteConsistency} (lastErr : Option OpError)
    {passes : List Pass} (missed : passes.any (Pass.settled wc) = false) :
    (retryFrom wc lastErr passes).modified = passes.any Pass.modified := by
  induction passes generalizing lastErr with
  | nil => rfl
  | cons p rest ih =>
    obtain ⟨first, later⟩ : p.settled wc = false ∧ rest.any (Pass.settled wc) = false := by
      simpa using missed
    obtain ⟨err, attempted, _⟩ := Pass.attempt_of_unsettled first
    simp only [retryFrom, attempted, Option.isNone_some, Bool.not_true, Bool.or_false,
      Bool.false_eq_true, ↓reduceIte, List.any_cons]
    rw [ih _ later]

def Durable.failedStored : Durable → Bool
  | .failed _ stored => stored
  | _ => false

/-- What a write may meet. A replicated write has a pass that settles it, or hears its last
refusals without a reason, or no leg of any pass reaches a mounted backend that stores; and the
backend of a single copy does not fail a write that it has stored, unless the reply is lost. -/
def Target.Careful : Target → Prop
  | .replicated wc (.cleanCut p) =>
    p.settled wc = true ∨ p.hears .acquiring = false ∨ p.Untouched
  | .replicated wc (.budget passes) =>
    (∃ p ∈ passes, p.settled wc = true) ∨ endsUnreasoned passes = true ∨
      ∀ p ∈ passes, p.Untouched
  | .singleCopy (.self (some written)) => written.failedStored = false
  | .singleCopy (.peer true true (some written) none) => written.failedStored = false
  | _ => True

theorem putReplicatedUnit_honest_iff (wc : WriteConsistency) (retry : Retry) :
    (putReplicatedUnit wc retry).Honest ↔ (Target.replicated wc retry).Careful := by
  cases retry with
  | cleanCut p =>
    change ((p.putReplicatedUnitAttempt wc).err.any OpError.isErrAcquiring = true →
      p.modified = false) ↔ _
    rw [p.modified_eq_false_iff]
    cases missed : p.settled wc with
    | true => simp [(Pass.attempt_of_settled missed).2, Target.Careful, missed]
    | false =>
      obtain ⟨err, attempted, reason⟩ := Pass.attempt_of_unsettled missed
      cases heard : p.hears .acquiring <;>
        simp [attempted, reason, Target.Careful, missed, heard]
  | budget passes =>
    change ((retryFrom wc none passes).refused = true →
      (retryFrom wc none passes).modified = false) ↔ _
    rw [retryFrom_refused]
    cases settled : passes.any (Pass.settled wc) with
    | true => exact iff_of_true (by simp) (.inl (List.any_eq_true.mp settled))
    | false =>
      rw [retryFrom_modified none settled]
      have reason : ∀ last : Option Pass, (last.map (Pass.hears · .acquiring)).getD false =
          !last.all fun p => !p.hears .acquiring := by
        rintro (_ | p) <;> simp
      have never : ¬ ∃ p ∈ passes, p.settled wc = true := by
        rintro ⟨p, mem, settles⟩
        exact List.any_eq_false.mp settled p mem settles
      rw [Target.Careful, or_iff_right never, Option.any_none, reason, ← endsUnreasoned]
      cases endsUnreasoned passes <;> simp [Pass.modified_eq_false_iff]

theorem withLocalWriteBackend_honest_iff (op : String) (written : Durable) :
    (withLocalWriteBackend op (some written)).Honest ↔ written.failedStored = false := by
  cases written <;> simp [Outcome.Honest, Outcome.refused, withLocalWriteBackend, Durable.err,
    Durable.stored, Durable.failedStored, errUnitAcquiring, errUnitAcquiringBecause,
    OpError.isErrAcquiring]

theorem answered_none_honest_iff (o : Outcome) : (o.answered none).Honest ↔ o.Honest := by
  have kept : ∀ err : OpError, err.overWire.isErrAcquiring = err.isErrAcquiring := by
    intro err
    cases err <;> rfl
  cases err : o.err <;> simp [Outcome.Honest, Outcome.refused, Outcome.answered, err, kept]

theorem answered_some_honest (o : Outcome) (code : Code) (message : String) :
    (o.answered (some (code, message))).Honest := by
  simp [Outcome.Honest, Outcome.refused, Outcome.answered, OpError.isErrAcquiring]

theorem Owner.write_honest_iff (op : String) (owner : Owner) :
    (owner.write op).Honest ↔ (Target.singleCopy owner).Careful := by
  cases owner with
  | self mount =>
    cases mount with
    | none => simp [Owner.write, withLocalWriteBackend, Outcome.Honest, Target.Careful]
    | some written => exact withLocalWriteBackend_honest_iff op written
  | dialFailed | undelivered => simp [Owner.write, Outcome.Honest, Target.Careful]
  | peer owns ready mount lost =>
    cases lost with
    | some reply =>
      have honest := answered_some_honest (localReplicaWrite op owns ready mount)
        reply.1 reply.2
      exact iff_of_true honest (by simp [Target.Careful])
    | none =>
      change ((localReplicaWrite op owns ready mount).answered none).Honest ↔ _
      rw [answered_none_honest_iff]
      cases owns with
      | false => simp [localReplicaWrite, Outcome.Honest, Target.Careful]
      | true =>
        cases ready with
        | false => simp [localReplicaWrite, Outcome.Honest, Target.Careful]
        | true =>
          cases mount with
          | none =>
            simp [localReplicaWrite, withLocalWriteBackend, Outcome.Honest, Target.Careful]
          | some written => exact withLocalWriteBackend_honest_iff op written

theorem Target.write_honest_iff (op : String) (target : Target) :
    (target.write op).Honest ↔ target.Careful := by
  cases target with
  | replicated wc retry => exact putReplicatedUnit_honest_iff wc retry
  | singleCopy owner => exact owner.write_honest_iff op
  | singleNode written =>
    -- the raw error of the one backend never carries a reason
    cases written <;> simp [Target.write, Outcome.Honest, Outcome.refused, Durable.err,
      BackendError.raw, OpError.isErrAcquiring, Target.Careful]

/-- Three replicas of which the writing node has its position mounted and stores, and the two
peers are acquiring theirs. -/
def halfMounted : Pass where
  first := .self (some ⟨none, .ok true, none, .done⟩)
  others := [.peer true none none, .peer true none none]
  counted := 3
  supp := []
  stableR := 3

end Shale.WriteRefusal
