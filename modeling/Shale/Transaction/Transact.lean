import Mathlib.Tactic.Common

/-!
# The retry loop of a transaction

`Transact` runs its closure, commits, and runs the closure again after a conflict or a
retryable commit error. A commit goes to the owner's `CommitCASApply`, in process or by RPC,
and what its error says is classified by `commitRetryable` alone. The errors it retries are
meant to be refusals that applied nothing; two of them are not: a response that is lost after
the owner has applied the write-set, and a fenced flush after a fan-out that missed its acks.
-/

namespace Shale.Transact

/-- The gRPC status codes that the loop tells apart. -/
inductive Code where
  | unavailable
  | failedPrecondition
  | other
deriving DecidableEq

/-- An error of a commit that is not a conflict: one that wraps `ErrFenced` without a status,
one with a status, any other. -/
inductive Failure where
  | fenced
  | status (code : Code)
  | plain
deriving DecidableEq

inductive CommitError where
  | conflict
  | failure (err : Failure)
deriving DecidableEq

def commitRetryable : Failure → Bool
  | .fenced | .status .unavailable | .status .failedPrecondition => true
  | .status .other | .plain => false

structure CASResult where
  committed : Bool
  conflict : Bool
  underReplicated : Bool
  err : Option Failure
deriving DecidableEq

/-- What happens in a `CommitCASApply`: the errors it meets, in the order it can meet them.
`checks` is the outcome of the read-set, `apply` the first error of a write or of the commit
of the backend's transaction, `fanout` that of `replicateCASBatch`, which runs with several
replicas only, and `flush` that of the owner's flush. -/
structure OwnerRun where
  notReady : Bool
  begin : Option Failure
  ctx : Option Failure
  checks : Except Failure Bool
  apply : Option Failure
  fanout : Option Failure
  flush : Option Failure

def casFenceToTransient : Failure → Failure
  | .fenced => .status .unavailable
  | err => err

namespace OwnerRun

/-- A result that reports an error and nothing else. -/
def failed (err : Failure) : CASResult := ⟨false, false, false, some err⟩

def commitCASApply (run : OwnerRun) : CASResult × Bool :=
  if run.notReady then (failed .plain, false)
  else
    match run.begin with
    | some err => (failed err, false)
    | none =>
      match run.ctx with
      | some err => (failed err, false)
      | none =>
        match run.checks with
        | .error err => (failed (casFenceToTransient err), false)
        | .ok false => (⟨false, true, false, none⟩, false)
        | .ok true =>
          match run.apply with
          | some err => (failed (casFenceToTransient err), false)
          | none =>
            match run.fanout with
            | none => (⟨true, false, false, none⟩, true)
            | some missed =>
              match run.flush with
              | some err => (failed err, true)
              | none => (⟨true, false, true, some missed⟩, true)

def applies (run : OwnerRun) : Bool :=
  !run.notReady && run.begin.isNone && run.ctx.isNone &&
    (match run.checks with | .ok passed => passed | .error _ => false) && run.apply.isNone

theorem commitCASApply_of_applies {run : OwnerRun} (applies : run.applies = true) :
    run.commitCASApply =
      match run.fanout, run.flush with
      | none, _ => (⟨true, false, false, none⟩, true)
      | some _, some err => (failed err, true)
      | some missed, none => (⟨true, false, true, some missed⟩, true) := by
  obtain ⟨notReady, begin, ctx, checks, apply, fanout, flush⟩ := run
  simp only [OwnerRun.applies, Bool.and_eq_true, Bool.not_eq_true', Option.isNone_iff_eq_none]
    at applies
  obtain ⟨⟨⟨⟨rfl, rfl⟩, rfl⟩, passed⟩, rfl⟩ := applies
  rcases checks with err | passes
  · cases passed
  · cases passes
    · cases passed
    · rcases fanout with _ | missed
      · rfl
      · cases flush <;> rfl

theorem commitCASApply_applied (run : OwnerRun) : run.commitCASApply.2 = run.applies := by
  by_cases applies : run.applies = true
  · rw [commitCASApply_of_applies applies, applies]
    split <;> rfl
  · rw [Bool.not_eq_true] at applies
    rw [applies]
    unfold commitCASApply
    split
    · rfl
    · split
      · rfl
      · split
        · rfl
        · split
          · rfl
          · rfl
          · split
            · rfl
            · simp_all [OwnerRun.applies]

end OwnerRun

def casResultToError (res : CASResult) : Option CommitError :=
  if res.committed then none
  else if res.conflict then some .conflict
  else res.err.map .failure

structure Response where
  committed : Bool
  conflict : Bool
  underReplicated : Bool
  error : Bool
deriving DecidableEq

def casCommitResponse (res : CASResult) : Except Code Response :=
  if res.committed then .ok ⟨true, false, res.underReplicated, false⟩
  else if res.conflict then .ok ⟨false, true, false, false⟩
  else
    match res.err with
    | some (.status code) => .error code
    | some _ => .ok ⟨false, false, false, true⟩
    | none => .ok ⟨false, false, false, false⟩

/-- How the commit RPC goes: the request is lost, the server refuses it because it does not
own the pin key, the owner's response arrives, or the owner runs and its response is lost. -/
inductive Rpc where
  | lost (code : Code)
  | refused
  | answered (run : OwnerRun)
  | lostAfter (run : OwnerRun) (code : Code)

/-- Where `commitCAS` sends the commit; `client` is the error of `clientFor`. -/
inductive Dispatch where
  | inProcess (run : OwnerRun)
  | remote (client : Option Failure) (rpc : Rpc)

namespace Dispatch

def ofResponse (resp : Response) : Option CommitError :=
  if resp.conflict then some .conflict
  else if resp.committed then none
  else if resp.error then some (.failure .plain)
  else none

def commitCAS : Dispatch → Option CommitError × Bool
  | .inProcess run => (casResultToError run.commitCASApply.1, run.commitCASApply.2)
  | .remote (some err) _ => (some (.failure err), false)
  | .remote none (.lost code) => (some (.failure (.status code)), false)
  | .remote none .refused => (some (.failure (.status .failedPrecondition)), false)
  | .remote none (.answered run) =>
    match casCommitResponse run.commitCASApply.1 with
    | .error code => (some (.failure (.status code)), run.commitCASApply.2)
    | .ok resp => (ofResponse resp, run.commitCASApply.2)
  | .remote none (.lostAfter run code) => (some (.failure (.status code)), run.commitCASApply.2)

/-- The write-set is applied and the commit comes back with a retryable error: its fan-out
missed and its flush failed with an error that is retryable where it arrives, or its response
was lost with a retryable status. -/
def exposed : Dispatch → Bool
  | .inProcess run => run.applies && run.fanout.isSome && run.flush.any commitRetryable
  | .remote none (.answered run) =>
    run.applies && run.fanout.isSome &&
      run.flush.any fun err => err != .fenced && commitRetryable err
  | .remote none (.lostAfter run code) => run.applies && commitRetryable (.status code)
  | _ => false

variable {d : Dispatch}

theorem exposed_iff (applied : d.commitCAS.2 = true) :
    d.commitCAS.1 ≠ some .conflict ∧
      (d.exposed = true ↔ ∃ err, d.commitCAS.1 = some (.failure err) ∧
        commitRetryable err = true) := by
  cases d with
  | inProcess run =>
    have applies : run.applies = true := run.commitCASApply_applied ▸ applied
    simp only [commitCAS, exposed, OwnerRun.commitCASApply_of_applies applies, applies]
    rcases run.fanout with _ | missed
    · simp [casResultToError]
    · rcases run.flush with _ | err <;> simp [casResultToError, OwnerRun.failed]
  | remote client rpc =>
    rcases client with _ | err
    · cases rpc with
      | lost code => cases applied
      | refused => cases applied
      | answered run =>
        have applies : run.applies = true := by
          rw [← run.commitCASApply_applied]
          simp only [commitCAS] at applied
          split at applied <;> exact applied
        simp only [commitCAS, exposed, OwnerRun.commitCASApply_of_applies applies, applies]
        rcases run.fanout with _ | missed
        · simp [casCommitResponse, ofResponse]
        · rcases run.flush with _ | err
          · simp [casCommitResponse, ofResponse]
          · rcases err with _ | code | _ <;>
              simp [casCommitResponse, ofResponse, OwnerRun.failed, commitRetryable]
      | lostAfter run code =>
        have applies : run.applies = true := run.commitCASApply_applied ▸ applied
        simp [commitCAS, exposed, applies]
    · cases applied

theorem applied_of_exposed (exposed : d.exposed = true) : d.commitCAS.2 = true := by
  cases d with
  | inProcess run =>
    simp only [Dispatch.exposed, Bool.and_eq_true] at exposed
    rw [commitCAS, run.commitCASApply_applied, exposed.1.1]
  | remote client rpc =>
    rcases client with _ | err
    · cases rpc with
      | lost code => cases exposed
      | refused => cases exposed
      | answered run =>
        simp only [Dispatch.exposed, Bool.and_eq_true] at exposed
        simp only [commitCAS]
        split <;> rw [run.commitCASApply_applied, exposed.1.1]
      | lostAfter run code =>
        simp only [Dispatch.exposed, Bool.and_eq_true] at exposed
        rw [commitCAS, run.commitCASApply_applied, exposed.1]
    · cases exposed

end Dispatch

variable {Err : Type}

/-- One turn of the loop: what the closure returns, whether the transaction ships anything,
whether the node is closed when it commits, how the commit goes, and whether the deadline of
retryable errors has passed when it comes back. -/
structure Attempt (Err : Type) where
  fn : Option Err
  ships : Bool
  notReady : Bool
  dispatch : Dispatch
  expired : Bool

namespace Attempt

def commit (a : Attempt Err) : Option CommitError × Bool :=
  if !a.ships then (none, false)
  else if a.notReady then (some (.failure .plain), false)
  else a.dispatch.commitCAS

def applied (a : Attempt Err) : Bool := a.fn.isNone && a.commit.2

/-- The write-set is applied and the error of the commit is retryable. -/
def exposed (a : Attempt Err) : Bool := a.fn.isNone && a.ships && !a.notReady && a.dispatch.exposed

theorem exposed_iff (a : Attempt Err) :
    a.exposed = true ↔ a.applied = true ∧
      ∃ err, a.commit.1 = some (.failure err) ∧ commitRetryable err = true := by
  unfold Attempt.exposed Attempt.applied commit
  by_cases ships : a.ships = true
  · by_cases closed : a.notReady = true
    · simp [ships, closed]
    · have ready : a.notReady = false := by simpa using closed
      simp only [ships, ready, Bool.not_true, Bool.false_eq_true, ↓reduceIte, Bool.not_false,
        Bool.and_true, Bool.and_eq_true, Option.isNone_iff_eq_none, and_assoc]
      refine and_congr_right fun _ => ⟨fun exposed => ?_, fun ⟨applied, retryable⟩ => ?_⟩
      · have applied := Dispatch.applied_of_exposed exposed
        exact ⟨applied, (Dispatch.exposed_iff applied).2.mp exposed⟩
      · exact (Dispatch.exposed_iff applied).2.mpr retryable
  · simp [ships]

theorem not_conflict_of_applied {a : Attempt Err} (applied : a.applied = true) :
    a.commit.1 ≠ some .conflict := by
  simp only [Attempt.applied, Bool.and_eq_true] at applied
  have committed := applied.2
  unfold commit at committed ⊢
  split at committed
  · cases committed
  case isFalse ships =>
    split at committed
    · cases committed
    case isFalse ready =>
      rw [if_neg ships, if_neg ready]
      exact (Dispatch.exposed_iff committed).1

end Attempt

structure Budget where
  maxAttempts : Nat
  maxRuns : Nat

/-- The variables of the loop. -/
structure Counters where
  attempt : Nat
  retryableRuns : Nat
  conflicted : Bool
deriving DecidableEq

inductive TransactError (Err : Type) where
  | closed
  | fn (err : Err)
  | commit (err : Failure)
  | retriesExhausted (runs : Nat) (err : Failure)
  | attemptsExhausted (attempts : Nat)
  | conflict
deriving DecidableEq

inductive Turn (Err : Type) where
  | returns (err : Option (TransactError Err))
  | again (counters : Counters)

/-- The body of the loop. -/
def turn (b : Budget) (c : Counters) (a : Attempt Err) : Turn Err :=
  match a.fn with
  | some err => .returns (some (.fn err))
  | none =>
    match a.commit.1 with
    | none => .returns none
    | some .conflict => .again { c with attempt := c.attempt + 1, conflicted := true }
    | some (.failure err) =>
      if commitRetryable err then
        if a.expired then .returns (some (.commit err))
        else if b.maxRuns ≤ c.retryableRuns then
          .returns (some (.retriesExhausted c.retryableRuns err))
        else .again { c with retryableRuns := c.retryableRuns + 1 }
      else .returns (some (.commit err))

theorem turn_eq_again {b : Budget} {c c' : Counters} {a : Attempt Err}
    (goes : turn b c a = .again c') :
    a.fn = none ∧
      (a.commit.1 = some .conflict ∧
          c' = { c with attempt := c.attempt + 1, conflicted := true } ∨
        ∃ err, a.commit.1 = some (.failure err) ∧ commitRetryable err = true ∧
          a.expired = false ∧ c.retryableRuns < b.maxRuns ∧
          c' = { c with retryableRuns := c.retryableRuns + 1 }) := by
  unfold turn at goes
  split at goes
  · cases goes
  case h_2 ran =>
    refine ⟨ran, ?_⟩
    split at goes
    · cases goes
    case h_2 clash => exact .inl ⟨clash, (Turn.again.inj goes).symm⟩
    case h_3 err failed =>
      split at goes
      case isTrue retryable =>
        split at goes
        · cases goes
        case isFalse early =>
          split at goes
          · cases goes
          case isFalse left =>
            exact .inr ⟨err, failed, retryable, by simpa using early, by omega,
              (Turn.again.inj goes).symm⟩
      case isFalse => cases goes

structure Returned (Err : Type) where
  err : Option (TransactError Err)
  runs : Nat
deriving DecidableEq

def transactFrom (b : Budget) (schedule : Nat → Attempt Err) (i : Nat) (c : Counters) :
    Returned Err :=
  if c.attempt < b.maxAttempts then
    match goes : turn b c (schedule i) with
    | .returns err => ⟨err, i + 1⟩
    | .again c' => transactFrom b schedule (i + 1) c'
  else ⟨some (if c.conflicted then .attemptsExhausted b.maxAttempts else .conflict), i⟩
termination_by (b.maxAttempts - c.attempt) + (b.maxRuns - c.retryableRuns)
decreasing_by
  rcases (turn_eq_again goes).2 with ⟨-, rfl⟩ | ⟨err, -, -, -, left, rfl⟩
  · dsimp only
    omega
  · dsimp only
    omega

def transact (b : Budget) (notReady : Bool) (schedule : Nat → Attempt Err) : Returned Err :=
  if notReady then ⟨some .closed, 0⟩ else transactFrom b schedule 0 ⟨0, 0, false⟩

def counters (b : Budget) (schedule : Nat → Attempt Err) : Nat → Option Counters
  | 0 => if 0 < b.maxAttempts then some ⟨0, 0, false⟩ else none
  | i + 1 =>
    match counters b schedule i with
    | none => none
    | some c =>
      match turn b c (schedule i) with
      | .returns _ => none
      | .again c' => if c'.attempt < b.maxAttempts then some c' else none

section Runs

variable {b : Budget} {schedule : Nat → Attempt Err} {i j : Nat} {c : Counters}

variable {err : Option (TransactError Err)} {c' : Counters}

theorem transactFrom_of_returns (below : c.attempt < b.maxAttempts)
    (ends : turn b c (schedule i) = .returns err) :
    transactFrom b schedule i c = ⟨err, i + 1⟩ := by
  rw [transactFrom, if_pos below]
  split
  case h_1 err' ends' => rw [Turn.returns.inj (ends'.symm.trans ends)]
  case h_2 c' goes => cases goes.symm.trans ends

theorem transactFrom_of_again (below : c.attempt < b.maxAttempts)
    (goes : turn b c (schedule i) = .again c') :
    transactFrom b schedule i c = transactFrom b schedule (i + 1) c' := by
  rw [transactFrom, if_pos below]
  split
  case h_1 err ends => cases ends.symm.trans goes
  case h_2 c'' goes' => rw [Turn.again.inj (goes'.symm.trans goes)]

theorem counters_succ_of_returns (found : counters b schedule i = some c)
    (ends : turn b c (schedule i) = .returns err) :
    counters b schedule (i + 1) = none := by
  simp [counters, found, ends]

theorem counters_succ_of_again (found : counters b schedule i = some c)
    (goes : turn b c (schedule i) = .again c') :
    counters b schedule (i + 1) = if c'.attempt < b.maxAttempts then some c' else none := by
  simp [counters, found, goes]

theorem counters_eq_none_of_le (ended : counters b schedule i = none) (le : i ≤ j) :
    counters b schedule j = none := by
  induction le with
  | refl => exact ended
  | step _ ih => simp [counters, ih]

theorem of_counters_zero (found : counters b schedule 0 = some c) :
    c = ⟨0, 0, false⟩ ∧ c.attempt < b.maxAttempts := by
  simp only [counters] at found
  split at found
  case isTrue some_ => exact Option.some.inj found ▸ ⟨rfl, some_⟩
  case isFalse => cases found

theorem of_counters_succ (found : counters b schedule (i + 1) = some c) :
    ∃ before, counters b schedule i = some before ∧ turn b before (schedule i) = .again c ∧
      c.attempt < b.maxAttempts := by
  simp only [counters] at found
  split at found
  · cases found
  case h_2 before earlier =>
    split at found
    · cases found
    case h_2 after goes =>
      split at found
      case isTrue below => exact Option.some.inj found ▸ ⟨before, earlier, goes, below⟩
      case isFalse => cases found

theorem attempt_lt_of_counters (found : counters b schedule i = some c) :
    c.attempt < b.maxAttempts := by
  cases i with
  | zero => exact (of_counters_zero found).2
  | succ i =>
    obtain ⟨-, -, -, below⟩ := of_counters_succ found
    exact below

theorem runs_transactFrom (found : counters b schedule i = some c) (le : i ≤ j) :
    (counters b schedule j).isSome = true ↔ j < (transactFrom b schedule i c).runs := by
  -- along the recursion of the loop
  induction i, c using transactFrom.induct b schedule generalizing j with
  | case1 i c below err ends =>
    rw [transactFrom_of_returns below ends]
    rcases Nat.eq_or_lt_of_le le with rfl | lt
    · simp [found]
    · rw [counters_eq_none_of_le (counters_succ_of_returns found ends) lt]
      simp only [Option.isSome_none, Bool.false_eq_true, false_iff, Nat.not_lt]
      omega
  | case2 i c below c' goes ih =>
    rw [transactFrom_of_again below goes]
    have after := counters_succ_of_again found goes
    by_cases within : c'.attempt < b.maxAttempts
    · rw [if_pos within] at after
      rcases Nat.eq_or_lt_of_le le with rfl | lt
      · have last := (ih after (Nat.le_refl _)).mp (by simp [after])
        simp only [found, Option.isSome_some, true_iff]
        omega
      · exact ih after lt
    · rw [if_neg within] at after
      rw [transactFrom, if_neg within]
      rcases Nat.eq_or_lt_of_le le with rfl | lt
      · simp [found]
      · rw [counters_eq_none_of_le after lt]
        simp only [Option.isSome_none, Bool.false_eq_true, false_iff, Nat.not_lt]
        omega
  | case3 i c above => exact absurd (attempt_lt_of_counters found) above

theorem lt_runs_iff : i < (transact b false schedule).runs ↔
    (counters b schedule i).isSome = true := by
  by_cases some_ : 0 < b.maxAttempts
  · have first : counters b schedule 0 = some ⟨0, 0, false⟩ := if_pos some_
    exact (runs_transactFrom first (Nat.zero_le i)).symm
  · have first : counters b schedule 0 = none := if_neg some_
    rw [counters_eq_none_of_le first (Nat.zero_le i), transact, if_neg Bool.false_ne_true,
      transactFrom, if_neg some_]
    simp

end Runs

/-- **Only the last run of the closure may have been applied**, exactly if no run is applied
and comes back with a retryable error before the deadline while re-runs are left: for every
closure, placement of the owner and schedule of faults. -/
theorem applied_run_is_last_iff (b : Budget) (notReady : Bool) (schedule : Nat → Attempt Err) :
    (∀ i < (transact b notReady schedule).runs, (schedule i).applied = true →
        i + 1 = (transact b notReady schedule).runs) ↔
      notReady = true ∨ ∀ i c, counters b schedule i = some c → (schedule i).exposed = true →
        (schedule i).expired = true ∨ b.maxRuns ≤ c.retryableRuns := by
  cases notReady with
  | true => simp [transact]
  | false =>
    simp only [Bool.false_eq_true, false_or]
    constructor
    · intro last i c found exposed
      obtain ⟨applied, err, failed, retryable⟩ := (schedule i).exposed_iff.mp exposed
      by_contra! left
      -- the turn goes on with one re-run more
      have made := lt_runs_iff.mpr (by simp [found] : (counters b schedule i).isSome = true)
      have ran : (schedule i).fn = none := by
        simp only [Attempt.applied, Bool.and_eq_true, Option.isNone_iff_eq_none] at applied
        exact applied.1
      have goes : turn b c (schedule i) =
          .again { c with retryableRuns := c.retryableRuns + 1 } := by
        simp [turn, ran, failed, retryable, left.1, left.2]
      have next := counters_succ_of_again found goes
      rw [if_pos (attempt_lt_of_counters found)] at next
      have again := lt_runs_iff.mpr
        (by simp [next] : (counters b schedule (i + 1)).isSome = true)
      exact absurd (last i made applied) (Nat.ne_of_lt again)
    · intro safe i made applied
      by_contra notLast
      obtain ⟨c', next⟩ := Option.isSome_iff_exists.mp
        (lt_runs_iff.mp (by omega : i + 1 < (transact b false schedule).runs))
      obtain ⟨c, found⟩ := Option.isSome_iff_exists.mp (lt_runs_iff.mp made)
      cases goes : turn b c (schedule i) with
      | returns err => cases next.symm.trans (counters_succ_of_returns found goes)
      | again c'' =>
        rcases (turn_eq_again goes).2 with
          ⟨clash, -⟩ | ⟨err, failed, retryable, early, left, -⟩
        · exact Attempt.not_conflict_of_applied applied clash
        · have exposed := (schedule i).exposed_iff.mpr ⟨applied, err, failed, retryable⟩
          rcases safe i c found exposed with late | spent
          · simp [early] at late
          · omega

/-- A `CommitCASApply` that meets no error. -/
def OwnerRun.clean : OwnerRun := ⟨false, none, none, .ok true, none, none, none⟩

/-- A run of the closure that returns nil and ships its commit in time. -/
def Attempt.shipped (dispatch : Dispatch) : Attempt Empty := ⟨none, true, false, dispatch, false⟩

def lostResponse : Nat → Attempt Empty
  | 0 => .shipped (.remote none (.lostAfter .clean .unavailable))
  | _ => .shipped (.remote none (.answered .clean))

def fencedFlush : Nat → Attempt Empty
  | 0 => .shipped (.inProcess { OwnerRun.clean with
      fanout := some (.status .unavailable), flush := some .fenced })
  | _ => .shipped (.remote none (.answered .clean))

/-- With the budgets of the source, both schedules run the closure twice, and the write-set of
each run is applied. -/
theorem applied_twice :
    (∀ schedule ∈ [lostResponse, fencedFlush], transact ⟨10, 24⟩ false schedule = ⟨none, 2⟩) ∧
      ∀ schedule ∈ [lostResponse, fencedFlush],
        (schedule 0).applied = true ∧ (schedule 1).applied = true := by
  constructor
  · intro schedule listed
    simp only [List.mem_cons, List.not_mem_nil, or_false] at listed
    rcases listed with rfl | rfl
    · have goes : turn ⟨10, 24⟩ ⟨0, 0, false⟩ (lostResponse 0) = .again ⟨0, 1, false⟩ := rfl
      exact (transactFrom_of_again (by decide) goes).trans
        (transactFrom_of_returns (by decide) rfl)
    · have goes : turn ⟨10, 24⟩ ⟨0, 0, false⟩ (fencedFlush 0) = .again ⟨0, 1, false⟩ := rfl
      exact (transactFrom_of_again (by decide) goes).trans
        (transactFrom_of_returns (by decide) rfl)
  · intro schedule listed
    simp only [List.mem_cons, List.not_mem_nil, or_false] at listed
    rcases listed with rfl | rfl <;> decide

end Shale.Transact
