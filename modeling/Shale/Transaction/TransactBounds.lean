import Mathlib.Data.List.Range
import Shale.Transaction.Transact

/-!
# The budgets of a transaction's retries

`Transact` has one loop and two budgets. A conflict uses up an attempt; a retryable commit error
takes the loop variable back by one, uses up a re-run instead, and also ends the loop once
`transactUnavailableTimeout` has passed.
-/

namespace Shale.Transact

variable {Err : Type}

/-- What `time.Now` returns when the deadline is set and after the commit of each run, and
`transactUnavailableTimeout`. -/
structure Clock where
  start : Int
  now : Nat → Int
  timeout : Int

def Clock.past (clock : Clock) (i : Nat) : Bool :=
  decide (clock.now i > clock.start + clock.timeout)

def Clock.time (clock : Clock) (runs : Nat → Attempt Err) (i : Nat) : Attempt Err :=
  { runs i with expired := clock.past i }

namespace Attempt

def conflicting (a : Attempt Err) : Bool := a.fn.isNone && decide (a.commit.1 = some .conflict)

def refused (a : Attempt Err) : Bool :=
  a.fn.isNone &&
    match a.commit.1 with
    | some (.failure err) => commitRetryable err
    | _ => false

variable {a : Attempt Err}

theorem conflicting_iff :
    a.conflicting = true ↔ a.fn = none ∧ a.commit.1 = some .conflict := by
  simp [conflicting]

theorem refused_iff :
    a.refused = true ↔
      a.fn = none ∧ ∃ err, a.commit.1 = some (.failure err) ∧ commitRetryable err = true := by
  unfold refused
  rw [Bool.and_eq_true, Option.isNone_iff_eq_none]
  refine and_congr_right fun _ => ?_
  split
  case h_1 err failed => simp [failed]
  case h_2 other =>
    simp only [Bool.false_eq_true, false_iff, not_exists, not_and]
    intro err failed
    exact absurd failed (other err)

end Attempt

def conflicts (schedule : Nat → Attempt Err) (n : Nat) : Nat :=
  (List.range n).countP fun i => (schedule i).conflicting

def refusals (schedule : Nat → Attempt Err) (n : Nat) : Nat :=
  (List.range n).countP fun i => (schedule i).refused

section Count

variable {schedule : Nat → Attempt Err} {n : Nat}

theorem conflicts_succ : conflicts schedule (n + 1) =
    conflicts schedule n + if (schedule n).conflicting then 1 else 0 := by
  simp [conflicts, List.range_succ, List.countP_append, List.countP_cons]

theorem refusals_succ : refusals schedule (n + 1) =
    refusals schedule n + if (schedule n).refused then 1 else 0 := by
  simp [refusals, List.range_succ, List.countP_append, List.countP_cons]

theorem Attempt.not_refused_of_conflicting {a : Attempt Err} (clash : a.conflicting = true) :
    a.refused = false := by
  rw [Bool.eq_false_iff]
  intro refused
  obtain ⟨-, err, failed, -⟩ := Attempt.refused_iff.mp refused
  have same := (Attempt.conflicting_iff.mp clash).2
  rw [failed] at same
  cases same

end Count

structure Used (b : Budget) (schedule : Nat → Attempt Err) (n : Nat) (c : Counters) : Prop where
  attempt : c.attempt = conflicts schedule n
  retryableRuns : c.retryableRuns = refusals schedule n
  total : c.attempt + c.retryableRuns = n
  rerun : c.retryableRuns ≤ b.maxRuns
  conflicted : c.conflicted = decide (0 < c.attempt)

section Loop

variable {b : Budget} {schedule : Nat → Attempt Err} {i n : Nat} {c c' : Counters}

theorem Used.zero : Used b schedule 0 ⟨0, 0, false⟩ := ⟨rfl, rfl, rfl, Nat.zero_le _, rfl⟩

theorem Used.again (used : Used b schedule n c) (goes : turn b c (schedule n) = .again c') :
    Used b schedule (n + 1) c' := by
  obtain ⟨ran, clashes | fails⟩ := turn_eq_again goes
  · obtain ⟨clash, rfl⟩ := clashes
    have conflicting := Attempt.conflicting_iff.mpr ⟨ran, clash⟩
    refine ⟨?_, ?_, ?_, used.rerun, ?_⟩
    · rw [conflicts_succ, conflicting, used.attempt]
      rfl
    · rw [refusals_succ, Attempt.not_refused_of_conflicting conflicting]
      exact used.retryableRuns
    · have := used.total
      dsimp only
      omega
    · simp
  · obtain ⟨err, failed, retryable, -, left, rfl⟩ := fails
    have refused := Attempt.refused_iff.mpr ⟨ran, err, failed, retryable⟩
    have peaceful : (schedule n).conflicting = false := by
      rw [Bool.eq_false_iff]
      intro clash
      simp [Attempt.not_refused_of_conflicting clash] at refused
    refine ⟨?_, ?_, ?_, left, used.conflicted⟩
    · rw [conflicts_succ, peaceful]
      exact used.attempt
    · rw [refusals_succ, refused, used.retryableRuns]
      rfl
    · have := used.total
      dsimp only
      omega

theorem used_of_counters (found : counters b schedule n = some c) : Used b schedule n c := by
  induction n generalizing c with
  | zero => exact (of_counters_zero found).1 ▸ .zero
  | succ n ih =>
    obtain ⟨before, earlier, goes, -⟩ := of_counters_succ found
    exact (ih earlier).again goes

inductive LastRun (b : Budget) (schedule : Nat → Attempt Err) (result : Returned Err) : Prop where
  | returns {n : Nat} {c : Counters} {err : Option (TransactError Err)}
      (made : counters b schedule n = some c) (ends : turn b c (schedule n) = .returns err)
      (result_eq : result = ⟨err, n + 1⟩)
  | spent {n : Nat} {c c' : Counters} (made : counters b schedule n = some c)
      (goes : turn b c (schedule n) = .again c') (none_left : b.maxAttempts ≤ c'.attempt)
      (result_eq : result =
        ⟨some (if c'.conflicted then .attemptsExhausted b.maxAttempts else .conflict), n + 1⟩)

theorem lastRun_transactFrom (found : counters b schedule i = some c) :
    LastRun b schedule (transactFrom b schedule i c) := by
  -- along the recursion of the loop
  induction i, c using transactFrom.induct b schedule with
  | case1 i c below err ends =>
    exact .returns found ends (transactFrom_of_returns below ends)
  | case2 i c below c' goes ih =>
    have after := counters_succ_of_again found goes
    rw [transactFrom_of_again below goes]
    by_cases within : c'.attempt < b.maxAttempts
    · rw [if_pos within] at after
      exact ih after
    · refine .spent found goes (Nat.not_lt.mp within) ?_
      rw [transactFrom, if_neg within]
  | case3 i c above => exact absurd (attempt_lt_of_counters found) above

variable {err : Option (TransactError Err)}

theorem turn_eq_returns {a : Attempt Err} (ends : turn b c a = .returns err) :
    (∃ e, a.fn = some e ∧ err = some (.fn e)) ∨
      a.fn = none ∧
        (a.commit.1 = none ∧ err = none ∨
          ∃ failure, a.commit.1 = some (.failure failure) ∧
            (commitRetryable failure = false ∧ err = some (.commit failure) ∨
              commitRetryable failure = true ∧
                (a.expired = true ∧ err = some (.commit failure) ∨
                  b.maxRuns ≤ c.retryableRuns ∧
                    err = some (.retriesExhausted c.retryableRuns failure)))) := by
  unfold turn at ends
  split at ends
  case h_1 e failed => exact .inl ⟨e, failed, (Turn.returns.inj ends).symm⟩
  case h_2 ran =>
    refine .inr ⟨ran, ?_⟩
    split at ends
    case h_1 committed => exact .inl ⟨committed, (Turn.returns.inj ends).symm⟩
    case h_2 => cases ends
    case h_3 failure failed =>
      refine .inr ⟨failure, failed, ?_⟩
      split at ends
      case isFalse final =>
        exact .inl ⟨by simpa using final, (Turn.returns.inj ends).symm⟩
      case isTrue retryable =>
        refine .inr ⟨retryable, ?_⟩
        split at ends
        case isTrue late => exact .inl ⟨late, (Turn.returns.inj ends).symm⟩
        case isFalse =>
          split at ends
          case isTrue spent => exact .inr ⟨spent, (Turn.returns.inj ends).symm⟩
          case isFalse => cases ends

theorem transact_eq_transactFrom (found : counters b schedule i = some c) :
    transact b false schedule = transactFrom b schedule i c := by
  induction i generalizing c with
  | zero =>
    rw [(of_counters_zero found).1]
    rfl
  | succ i ih =>
    obtain ⟨before, earlier, goes, -⟩ := of_counters_succ found
    rw [ih earlier, transactFrom_of_again (attempt_lt_of_counters earlier) goes]

theorem transact_of_returns (found : counters b schedule i = some c)
    (ends : turn b c (schedule i) = .returns err) :
    transact b false schedule = ⟨err, i + 1⟩ := by
  rw [transact_eq_transactFrom found]
  exact transactFrom_of_returns (attempt_lt_of_counters found) ends

end Loop

structure WithinBudgets (b : Budget) (notReady : Bool) (clock : Clock)
    (schedule : Nat → Attempt Err) (result : Returned Err) : Prop where
  runs_le : result.runs ≤ b.maxAttempts + b.maxRuns
  /-- Each budget is used up by its own outcomes alone. -/
  separate : ∀ i < result.runs, ∃ c, counters b schedule i = some c ∧
    c.attempt = conflicts schedule i ∧ c.retryableRuns = refusals schedule i
  closed : result.err = some .closed → notReady = true ∧ result.runs = 0
  succeeds : result.err = none →
    ∃ n, result.runs = n + 1 ∧ (schedule n).fn = none ∧ (schedule n).commit.1 = none
  conflict : result.err = some .conflict ∨ (∃ attempts, result.err =
    some (.attemptsExhausted attempts)) → conflicts schedule result.runs = b.maxAttempts
  exhausted : ∀ {reruns err}, result.err = some (.retriesExhausted reruns err) →
    reruns = b.maxRuns ∧ ∃ n, result.runs = n + 1 ∧ refusals schedule n = b.maxRuns ∧
      (schedule n).fn = none ∧ (schedule n).commit.1 = some (.failure err) ∧
      commitRetryable err = true
  commit : ∀ {err}, result.err = some (.commit err) →
    ∃ n, result.runs = n + 1 ∧ (schedule n).fn = none ∧
      (schedule n).commit.1 = some (.failure err) ∧
      (commitRetryable err = true → clock.past n = true)
  fn : ∀ {err}, result.err = some (.fn err) →
    ∃ n, result.runs = n + 1 ∧ (schedule n).fn = some err
  /-- An error of the closure and a commit that has succeeded or failed for good end the loop. -/
  ends : ∀ i < result.runs,
    (∀ err, (schedule i).fn = some err → result = ⟨some (.fn err), i + 1⟩) ∧
      ((schedule i).fn = none → (schedule i).commit.1 = none → result = ⟨none, i + 1⟩) ∧
      ∀ err, (schedule i).fn = none → (schedule i).commit.1 = some (.failure err) →
        commitRetryable err = false → result = ⟨some (.commit err), i + 1⟩

section Bounds

variable {b : Budget} {clock : Clock} {schedule : Nat → Attempt Err}

theorem withinBudgets_of_no_attempts (none_left : b.maxAttempts = 0) :
    WithinBudgets b false clock schedule (transact b false schedule) := by
  have result : transact b false schedule = ⟨some .conflict, 0⟩ := by
    rw [transact, if_neg Bool.false_ne_true, transactFrom, if_neg (by omega)]
    rfl
  rw [result]
  exact
    { runs_le := Nat.zero_le _
      separate := fun i below => absurd below (Nat.not_lt_zero i)
      closed := fun failed => by cases failed
      succeeds := fun failed => by cases failed
      conflict := fun _ => by rw [none_left]; rfl
      exhausted := fun failed => by cases failed
      commit := fun failed => by cases failed
      fn := fun failed => by cases failed
      ends := fun i below => absurd below (Nat.not_lt_zero i) }

theorem withinBudgets_of_lastRun (timed : ∀ i, (schedule i).expired = clock.past i)
    (last : LastRun b schedule (transact b false schedule)) :
    WithinBudgets b false clock schedule (transact b false schedule) := by
  have made : ∀ i < (transact b false schedule).runs, ∃ c, counters b schedule i = some c :=
    fun i below => Option.isSome_iff_exists.mp (lt_runs_iff.mp below)
  have separate : ∀ i < (transact b false schedule).runs, ∃ c, counters b schedule i = some c ∧
      c.attempt = conflicts schedule i ∧ c.retryableRuns = refusals schedule i := by
    intro i below
    obtain ⟨c, found⟩ := made i below
    have used := used_of_counters found
    exact ⟨c, found, used.attempt, used.retryableRuns⟩
  have ends : ∀ i < (transact b false schedule).runs,
      (∀ err, (schedule i).fn = some err → transact b false schedule = ⟨some (.fn err), i + 1⟩) ∧
        ((schedule i).fn = none → (schedule i).commit.1 = none →
          transact b false schedule = ⟨none, i + 1⟩) ∧
        ∀ err, (schedule i).fn = none → (schedule i).commit.1 = some (.failure err) →
          commitRetryable err = false →
            transact b false schedule = ⟨some (.commit err), i + 1⟩ := by
    intro i below
    obtain ⟨c, found⟩ := made i below
    refine ⟨?_, ?_, ?_⟩
    · intro err failed
      exact transact_of_returns found (by simp [turn, failed])
    · intro ran committed
      exact transact_of_returns found (by simp [turn, ran, committed])
    · intro err ran failed final
      exact transact_of_returns found (by simp [turn, ran, failed, final])
  cases last with
  | @returns n c err found stops result =>
    have used := used_of_counters found
    have below := attempt_lt_of_counters found
    have bound : n + 1 ≤ b.maxAttempts + b.maxRuns := by
      have := used.total
      have := used.rerun
      omega
    have last := turn_eq_returns stops
    rw [result] at separate ends ⊢
    refine ⟨bound, separate, ?_, ?_, ?_, ?_, ?_, ?_, ends⟩
    all_goals dsimp only
    · rintro rfl
      simp at last
    · rintro rfl
      exact ⟨n, rfl, by simpa using last⟩
    · rintro (rfl | ⟨attempts, rfl⟩) <;> simp at last
    · rintro reruns err rfl
      simp only [reduceCtorEq, and_false, exists_false, Option.some.injEq,
        TransactError.retriesExhausted.injEq, false_or] at last
      obtain ⟨ran, failure, failed, retryable, spent, rfl, rfl⟩ := last
      have full := Nat.le_antisymm used.rerun spent
      exact ⟨full, n, rfl, used.retryableRuns.symm.trans full, ran, failed, retryable⟩
    · rintro err rfl
      simp only [reduceCtorEq, and_false, exists_false, Option.some.injEq,
        TransactError.commit.injEq, false_or, or_false] at last
      obtain ⟨ran, failure, failed, ⟨final, rfl⟩ | ⟨-, late, rfl⟩⟩ := last
      · exact ⟨n, rfl, ran, failed, fun retryable => by simp [final] at retryable⟩
      · exact ⟨n, rfl, ran, failed, fun _ => timed n ▸ late⟩
    · rintro err rfl
      simp only [reduceCtorEq, and_false, exists_false, Option.some.injEq,
        TransactError.fn.injEq, or_false] at last
      obtain ⟨e, failed, rfl⟩ := last
      exact ⟨n, rfl, failed⟩
  | @spent n c c' found goes none_left result =>
    have used := used_of_counters found
    have after := used.again goes
    have below := attempt_lt_of_counters found
    -- the last turn has used up the last attempt, and no re-run
    obtain ⟨-, ⟨-, rfl⟩ | ⟨-, -, -, -, -, rfl⟩⟩ := turn_eq_again goes
    · have bound : n + 1 ≤ b.maxAttempts + b.maxRuns := by
        have := used.total
        have := used.rerun
        omega
      have full : conflicts schedule (n + 1) = b.maxAttempts := by
        rw [← after.attempt]
        dsimp only at none_left ⊢
        omega
      rw [result] at separate ends ⊢
      exact
        { runs_le := bound
          separate
          closed := fun failed => by cases failed
          succeeds := fun failed => by cases failed
          conflict := fun _ => full
          exhausted := fun failed => by cases failed
          commit := fun failed => by cases failed
          fn := fun failed => by cases failed
          ends }
    · dsimp only at none_left
      omega

end Bounds

def Clock.frozen : Clock := ⟨0, fun _ => 0, 0⟩

def stretched (b : Budget) (i : Nat) : Attempt Err where
  fn := none
  ships := true
  notReady := false
  dispatch :=
    if i < b.maxRuns then .remote none .refused
    else .inProcess ⟨false, none, none, .ok false, none, none, none⟩
  expired := false

theorem counters_stretched {b : Budget} (some_ : 0 < b.maxAttempts) {i : Nat}
    (below : i < b.maxRuns + b.maxAttempts) :
    counters b (Clock.frozen.time (stretched b : Nat → Attempt Err)) i =
      some ⟨i - b.maxRuns, min i b.maxRuns, decide (b.maxRuns < i)⟩ := by
  induction i with
  | zero => simp [counters, some_]
  | succ i ih =>
    have before := ih (by omega)
    by_cases rerun : i < b.maxRuns
    · have goes : turn b ⟨i - b.maxRuns, min i b.maxRuns, decide (b.maxRuns < i)⟩
          (Clock.frozen.time (stretched b : Nat → Attempt Err) i) =
          .again ⟨0, i + 1, false⟩ := by
        have late : ¬ b.maxRuns < i := by omega
        have left : min i b.maxRuns = i := by omega
        have first : i - b.maxRuns = 0 := by omega
        simp [turn, Clock.time, stretched, Attempt.commit, Dispatch.commitCAS, commitRetryable,
          Clock.past, Clock.frozen, rerun, left, first, late]
      rw [counters_succ_of_again before goes, if_pos some_]
      have first : i + 1 - b.maxRuns = 0 := by omega
      have left : min (i + 1) b.maxRuns = i + 1 := by omega
      rw [first, left, decide_eq_false (Nat.not_lt.mpr rerun)]
    · have goes : turn b ⟨i - b.maxRuns, min i b.maxRuns, decide (b.maxRuns < i)⟩
          (Clock.frozen.time (stretched b : Nat → Attempt Err) i) =
          .again ⟨i - b.maxRuns + 1, min i b.maxRuns, true⟩ := by
        simp [turn, Clock.time, stretched, Attempt.commit, Dispatch.commitCAS,
          OwnerRun.commitCASApply, casResultToError, rerun]
      have within : i - b.maxRuns + 1 < b.maxAttempts := by omega
      rw [counters_succ_of_again before goes, if_pos within]
      have spent := Nat.not_lt.mp rerun
      have next : i + 1 - b.maxRuns = i - b.maxRuns + 1 := by omega
      have full : min (i + 1) b.maxRuns = min i b.maxRuns := by omega
      rw [next, full, decide_eq_true (Nat.lt_succ_of_le spent)]

/-- **The budgets of `Transact` are separate and its bound is tight.** For every closure, every
sequence of commit outcomes and every clock, the closure is run no more often than the two budgets
allow together, and each way of returning has one cause; and some schedule uses up both budgets. -/
theorem transact_within_budgets (b : Budget) :
    (∀ (notReady : Bool) (clock : Clock) (runs : Nat → Attempt Err),
      WithinBudgets b notReady clock (clock.time runs) (transact b notReady (clock.time runs))) ∧
      (0 < b.maxAttempts → ∃ (clock : Clock) (runs : Nat → Attempt Err),
        (transact b false (clock.time runs)).runs = b.maxAttempts + b.maxRuns) := by
  have within : ∀ (notReady : Bool) (clock : Clock) (runs : Nat → Attempt Err),
      WithinBudgets b notReady clock (clock.time runs)
        (transact b notReady (clock.time runs)) := by
    intro notReady clock runs
    cases notReady with
    | true =>
      exact ⟨Nat.zero_le _, nofun, fun _ => ⟨rfl, rfl⟩, nofun, nofun, nofun, nofun, nofun, nofun⟩
    | false =>
      by_cases some_ : 0 < b.maxAttempts
      · have first : counters b (clock.time runs) 0 = some ⟨0, 0, false⟩ := if_pos some_
        refine withinBudgets_of_lastRun (fun _ => rfl) ?_
        exact lastRun_transactFrom first
      · exact withinBudgets_of_no_attempts (by omega)
  refine ⟨within, fun some_ => ⟨.frozen, stretched b, ?_⟩⟩
  have last : ∃ c, counters b (Clock.frozen.time (stretched b : Nat → Attempt Err))
      (b.maxRuns + b.maxAttempts - 1) = some c := ⟨_, counters_stretched some_ (by omega)⟩
  have made := lt_runs_iff.mpr (Option.isSome_iff_exists.mpr last)
  have bound := (within false .frozen (stretched b)).runs_le
  omega

end Shale.Transact
