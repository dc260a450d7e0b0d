import Shale.Foundation.Loop
import Shale.Replication.WriteRefusal

/-!
# The end of a retry

The two loops of `multibackend_handoff_retry.go` and the wait between their attempts
(`retry_wait.go`). A write or read that meets a handoff is attempted again until its budget is
spent, and the error it then returns is made of what the attempts have heard.

What an attempt returns is a function of its number, and so is what the wall clock does meanwhile;
both are arbitrary.
-/

namespace Shale.HandoffRetry

open WriteRefusal (Code OpError WriteAttempt)

structure RetryWait where
  next : Nat
  max : Nat
  deadline : Option Nat
  capTerminates : Bool
  jitter : Bool

inductive RetryWaitResult where
  | proceed
  | exhausted

def newBudgetRetryWait (base maxInterval deadline : Nat) : RetryWait :=
  ⟨base, maxInterval, some deadline, false, true⟩

namespace RetryWait

def exhausted (w : RetryWait) (now : Nat) : Bool :=
  if w.capTerminates then decide (w.max < w.next)
  else
    match w.deadline with
    | none => false
    | some deadline => decide (deadline ≤ now)

def advance (w : RetryWait) : RetryWait :=
  let next := w.next * 2
  { w with next := if !w.capTerminates && decide (w.max < next) then w.max else next }

def wait (w : RetryWait) (now : Nat) (jitteredBackoff : Nat → Nat) (late : Nat) :
    RetryWaitResult × RetryWait × Nat :=
  if w.exhausted now then (.exhausted, w, now)
  else
    let sleep := if w.jitter then jitteredBackoff w.next else w.next
    let sleep :=
      match w.deadline with
      | none => sleep
      | some deadline => min sleep (deadline - now)
    (.proceed, w.advance, now + sleep + late)

end RetryWait

structure Config where
  writeTimeout : Nat
  readTimeout : Nat
  rebalanceRetryAfterMs : Int
  testingForceCleanCut : Bool

def Config.retryAfterMs (c : Config) : Nat :=
  if 0 < c.rebalanceRetryAfterMs then c.rebalanceRetryAfterMs.toNat else 50

def handoffRetryBackoffCap : Nat := 500 * 1000000

/-- What a call meets of the wall clock: when it is called, how long it takes to its first
attempt, how long each attempt takes, what `jitteredBackoff` makes of the interval after it, and
how late the sleep wakes. -/
structure Clock where
  called : Nat
  entry : Nat
  took : Nat → Nat
  jitteredBackoff : Nat → Nat → Nat
  late : Nat → Nat

/-- When the next attempt starts, and the schedule by then. -/
structure Pace where
  now : Nat
  backoff : RetryWait

section Pace

variable (c : Config) (clock : Clock) (timeout : Nat)

def enter : Pace where
  now := clock.called + clock.entry
  backoff := newBudgetRetryWait (c.retryAfterMs * 1000000) handoffRetryBackoffCap
    (clock.called + timeout)

def Pace.wait (p : Pace) (attempt : Nat) : RetryWaitResult × Pace :=
  let (result, backoff, now) :=
    p.backoff.wait (p.now + clock.took attempt) (clock.jitteredBackoff attempt)
      (clock.late attempt)
  (result, ⟨now, backoff⟩)

def pace : Nat → Pace
  | 0 => enter c clock timeout
  | attempt + 1 => (Pace.wait clock (pace attempt) attempt).2

def started (attempt : Nat) : Nat := (pace c clock timeout attempt).now

def ended (attempt : Nat) : Nat := started c clock timeout attempt + clock.took attempt

end Pace

section Write

variable (c : Config) (clock : Clock) (attempt : Nat → WriteAttempt)

structure WriteLoop where
  made : Nat
  pace : Pace
  lastErr : Option OpError

/-- What the call returns, and after how many attempts. -/
structure WriteEnd where
  err : Option OpError
  attempts : Nat

def writeTurn (s : WriteLoop) : WriteEnd ⊕ WriteLoop :=
  if clock.called + c.writeTimeout ≤ s.pace.now then
    .inl ⟨some (s.lastErr.getD (.status .unavailable false
      "shale: write timed out waiting for replicas to finish acquiring")), s.made⟩
  else
    let res := attempt s.made
    if res.err.isNone then .inl ⟨none, s.made + 1⟩
    else if !res.retryable then .inl ⟨res.err, s.made + 1⟩
    else
      let lastErr := if !res.noLegEvidence || s.lastErr.isNone then res.err else s.lastErr
      match s.pace.wait clock s.made with
      | (.exhausted, _) => .inl ⟨lastErr, s.made + 1⟩
      | (.proceed, pace) => .inr ⟨s.made + 1, pace, lastErr⟩

def retryWriteThroughHandoff (fuel : Nat) : Option WriteEnd :=
  if c.testingForceCleanCut then some ⟨(attempt 0).err, 1⟩
  else Loop.run (writeTurn c clock attempt) fuel ⟨0, enter c clock c.writeTimeout, none⟩

end Write

/-- An error of a read with what it wraps: an error of the operation, `context.DeadlineExceeded`,
`ErrAcquiring` itself, an error wrapped with a text, the marker `unreachableOnlyError`, and what
`errors.Join` makes of two. -/
inductive ReadErr where
  | op (err : OpError)
  | deadlineExceeded
  | errAcquiring
  | wrap (text : String) (inner : ReadErr)
  | unreachableOnly (inner : ReadErr)
  | join (left right : ReadErr)

namespace ReadErr

def is (target : ReadErr → Bool) : ReadErr → Bool
  | .wrap _ inner => inner.is target
  | .unreachableOnly inner => inner.is target
  | .join left right => left.is target || right.is target
  | err => target err

def isAcquiringErr : ReadErr → Bool :=
  is fun
    | .op (.acquiring _) => true
    | _ => false

def isErrAcquiring : ReadErr → Bool :=
  is fun
    | .op err => err.isErrAcquiring
    | .errAcquiring => true
    | _ => false

/-- `errors.As` to the marker: the error inside the first one. -/
def asUnreachableOnly : ReadErr → Option ReadErr
  | .wrap _ inner => inner.asUnreachableOnly
  | .unreachableOnly inner => some inner
  | .join left right => left.asUnreachableOnly.or right.asUnreachableOnly
  | _ => none

def isUnreachableOnly (err : ReadErr) : Bool := err.asUnreachableOnly.isSome

def unwrapUnreachableOnly (err : ReadErr) : ReadErr := err.asUnreachableOnly.getD err

def statusCode : ReadErr → Option Code
  | .op (.acquiring _) => some .unavailable
  | .op (.status code _ _) => some code
  | .wrap _ inner => inner.statusCode
  | .unreachableOnly inner => inner.statusCode
  | .join left right => left.statusCode.or right.statusCode
  | _ => none

def isDeadlineErr (err : ReadErr) : Bool :=
  err.is (fun
    | .deadlineExceeded => true
    | _ => false) ||
  match err.statusCode with
  | some (.other name) => name == "DeadlineExceeded"
  | _ => false

def attributeToAcquiring (err : ReadErr) (sawAcquiring : Bool) : ReadErr :=
  if !sawAcquiring then err
  else if err.isErrAcquiring then err
  else if !err.isDeadlineErr then err
  else .join err .errAcquiring

end ReadErr

/-- What an attempt of a read returns. The marker is made of the error of a leg, which holds
none. -/
structure Sweep (T : Type) where
  value : T
  err : Option ReadErr
  marks_leg : ∀ e ∈ err, ∀ inner, e.asUnreachableOnly = some inner →
    inner.asUnreachableOnly = none

def unreachableOnlyGrace : Nat := 2 * 1000000000

section Read

variable {T : Type} (c : Config) (clock : Clock) (attempt : Nat → Sweep T)

/-- The variables of the loop, and the attempts made. No time stands for the zero time. -/
structure ReadLoop where
  made : Nat
  pace : Pace
  unreachableRunStart : Option Nat
  sawAcquiring : Bool

/-- What the call returns, and after how many attempts. -/
structure ReadEnd (T : Type) where
  value : T
  err : Option ReadErr
  attempts : Nat

def repoll (s : ReadLoop) (value : T) (err : ReadErr) : ReadEnd T ⊕ ReadLoop :=
  match s.pace.wait clock s.made with
  | (.exhausted, _) =>
    .inl ⟨value, some (err.unwrapUnreachableOnly.attributeToAcquiring s.sawAcquiring),
      s.made + 1⟩
  | (.proceed, pace) => .inr { s with made := s.made + 1, pace }

def readTurn (s : ReadLoop) : ReadEnd T ⊕ ReadLoop :=
  let swept := attempt s.made
  let now := s.pace.now + clock.took s.made
  match swept.err with
  | none => .inl ⟨swept.value, none, s.made + 1⟩
  | some err =>
    if err.isAcquiringErr then
      repoll clock { s with sawAcquiring := true, unreachableRunStart := none } swept.value err
    else if err.isUnreachableOnly then
      let runStart := s.unreachableRunStart.getD now
      if unreachableOnlyGrace ≤ now - runStart then
        .inl ⟨swept.value, some err.unwrapUnreachableOnly, s.made + 1⟩
      else repoll clock { s with unreachableRunStart := some runStart } swept.value err
    else .inl ⟨swept.value, some (err.attributeToAcquiring s.sawAcquiring), s.made + 1⟩

def retryReadThroughHandoff (fuel : Nat) : Option (ReadEnd T) :=
  if c.testingForceCleanCut then
    some ⟨(attempt 0).value, (attempt 0).err.map ReadErr.unwrapUnreachableOnly, 1⟩
  else Loop.run (readTurn clock attempt) fuel ⟨0, enter c clock c.readTimeout, none, false⟩

end Read

section PaceLemmas

variable (c : Config) (clock : Clock) (timeout : Nat)

theorem pace_deadline (n : Nat) :
    (pace c clock timeout n).backoff.deadline = some (clock.called + timeout) ∧
      (pace c clock timeout n).backoff.capTerminates = false := by
  induction n with
  | zero => exact ⟨rfl, rfl⟩
  | succ n ih =>
    simp only [pace, Pace.wait, RetryWait.wait]
    split <;> exact ih

theorem exhausted_iff (n now : Nat) :
    (pace c clock timeout n).backoff.exhausted now = true ↔ clock.called + timeout ≤ now := by
  obtain ⟨deadline, uncapped⟩ := pace_deadline c clock timeout n
  simp [RetryWait.exhausted, deadline, uncapped]

theorem wait_cases (n : Nat) :
    clock.called + timeout ≤ ended c clock timeout n ∧
        (pace c clock timeout n).wait clock n = (.exhausted, pace c clock timeout (n + 1)) ∨
      ended c clock timeout n < clock.called + timeout ∧
        (pace c clock timeout n).wait clock n = (.proceed, pace c clock timeout (n + 1)) := by
  have spent := exhausted_iff c clock timeout n (ended c clock timeout n)
  simp only [started, ended] at spent ⊢
  rw [pace]
  unfold Pace.wait RetryWait.wait
  by_cases due : clock.called + timeout ≤ (pace c clock timeout n).now + clock.took n
  · rw [if_pos (spent.mpr due)]
    exact .inl ⟨due, rfl⟩
  · rw [if_neg (mt spent.mp due)]
    exact .inr ⟨Nat.not_le.mp due, rfl⟩

theorem RetryWait.le_wait (w : RetryWait) (now : Nat) (jitteredBackoff : Nat → Nat)
    (late : Nat) : now ≤ (w.wait now jitteredBackoff late).2.2 := by
  unfold wait
  split
  · exact Nat.le_refl now
  · exact (Nat.le_add_right now _).trans (Nat.le_add_right _ _)

theorem ended_le_started (n : Nat) : ended c clock timeout n ≤ started c clock timeout (n + 1) :=
  (pace c clock timeout n).backoff.le_wait _ _ _

theorem ended_mono : Monotone (ended c clock timeout) :=
  monotone_nat_of_le_succ fun n =>
    (ended_le_started c clock timeout n).trans (Nat.le_add_right _ _)

end PaceLemmas

def Hard (res : WriteAttempt) : Prop := res.err ≠ none ∧ res.retryable = false

def Retried (res : WriteAttempt) : Prop := res.err ≠ none ∧ res.retryable = true

theorem isNone_of_erred {err : Option OpError} (erred : err ≠ none) : err.isNone = false :=
  Option.isNone_eq_false_iff.mpr (Option.isSome_iff_ne_none.mpr erred)

theorem attempt_cases (res : WriteAttempt) : res.err = none ∨ Hard res ∨ Retried res := by
  by_cases acked : res.err = none
  · exact .inl acked
  · cases retryable : res.retryable with
    | false => exact .inr (.inl ⟨acked, retryable⟩)
    | true => exact .inr (.inr ⟨acked, retryable⟩)

section WriteLemmas

variable {c : Config} {clock : Clock} {attempt : Nat → WriteAttempt} {last : Nat}

def kept (attempt : Nat → WriteAttempt) : Nat → Option OpError
  | 0 => none
  | n + 1 =>
    if !(attempt n).noLegEvidence || (kept attempt n).isNone then (attempt n).err
    else kept attempt n

inductive WriteTerminal (attempt : Nat → WriteAttempt) (last : Nat) : WriteEnd → Prop where
  | success {i : Nat} (within : i ≤ last) (before : ∀ k < i, Retried (attempt k))
      (acked : (attempt i).err = none) : WriteTerminal attempt last ⟨none, i + 1⟩
  | failure {i : Nat} (within : i ≤ last) (before : ∀ k < i, Retried (attempt k))
      (failed : Hard (attempt i)) : WriteTerminal attempt last ⟨(attempt i).err, i + 1⟩
  | spent (all : ∀ k < last + 1, Retried (attempt k)) :
      WriteTerminal attempt last ⟨kept attempt (last + 1), last + 1⟩

def WriteBudgetEnds (c : Config) (clock : Clock) (last : Nat) : Prop :=
  if c.testingForceCleanCut then last = 0
  else (∀ i ≤ last, started c clock c.writeTimeout i < clock.called + c.writeTimeout) ∧
    clock.called + c.writeTimeout ≤ started c clock c.writeTimeout (last + 1)

variable {i n : Nat} {r : WriteEnd}

theorem kept_ne_none (all : ∀ k < n + 1, Retried (attempt k)) : kept attempt (n + 1) ≠ none := by
  rw [kept]
  split
  · exact (all n (Nat.lt_succ_self n)).1
  case isFalse blank =>
    intro none
    simp [none] at blank

theorem writeTurn_cases (within : n ≤ last + 1)
    (started_lt : ∀ i ≤ last, started c clock c.writeTimeout i < clock.called + c.writeTimeout)
    (due : clock.called + c.writeTimeout ≤ started c clock c.writeTimeout (last + 1))
    (before : ∀ k < n, Retried (attempt k)) :
    (∃ r, writeTurn c clock attempt ⟨n, pace c clock c.writeTimeout n, kept attempt n⟩ = .inl r ∧
        WriteTerminal attempt last r) ∨
      n ≤ last ∧ Retried (attempt n) ∧
        writeTurn c clock attempt ⟨n, pace c clock c.writeTimeout n, kept attempt n⟩ =
          .inr ⟨n + 1, pace c clock c.writeTimeout (n + 1), kept attempt (n + 1)⟩ := by
  unfold writeTurn
  dsimp only
  by_cases spent : clock.called + c.writeTimeout ≤ (pace c clock c.writeTimeout n).now
  · -- The check at the top of the loop: the last attempt has been made.
    obtain rfl : n = last + 1 := by
      by_contra earlier
      exact absurd spent (Nat.not_le.mpr (started_lt n (by omega)))
    obtain ⟨err, lastErr⟩ := Option.ne_none_iff_exists'.mp (kept_ne_none before)
    rw [if_pos spent]
    refine .inl ⟨_, rfl, ?_⟩
    have terminal : WriteTerminal attempt last ⟨kept attempt (last + 1), last + 1⟩ :=
      .spent before
    rw [lastErr] at terminal ⊢
    exact terminal
  · have small : n ≤ last := by
      by_contra later
      obtain rfl : n = last + 1 := by omega
      exact spent due
    rw [if_neg spent]
    rcases attempt_cases (attempt n) with acked | hard | retried
    · rw [acked]
      exact .inl ⟨_, rfl, .success small before acked⟩
    · rw [isNone_of_erred hard.1, hard.2]
      exact .inl ⟨_, rfl, .failure small before hard⟩
    · rw [isNone_of_erred retried.1, retried.2]
      rcases wait_cases c clock c.writeTimeout n with ⟨late, waited⟩ | ⟨-, waited⟩
      · -- The attempt has returned past the deadline, so no other is started.
        obtain rfl : n = last := by
          by_contra earlier
          have started := started_lt (n + 1) (by omega)
          have ended := ended_le_started c clock c.writeTimeout n
          omega
        rw [waited]
        exact .inl ⟨_, rfl, .spent (Nat.forall_lt_succ_right.mpr ⟨before, retried⟩)⟩
      · rw [waited]
        exact .inr ⟨small, retried, rfl⟩

variable (attempt) in
theorem retryWriteThroughHandoff_ends (budget : WriteBudgetEnds c clock last) :
    ∃ r, WriteTerminal attempt last r ∧
      ∀ fuel, last + 1 < fuel → retryWriteThroughHandoff c clock attempt fuel = some r := by
  unfold WriteBudgetEnds at budget
  split_ifs at budget with cleanCut
  · subst budget
    refine ⟨⟨(attempt 0).err, 1⟩, ?_, fun _ _ => if_pos cleanCut⟩
    rcases attempt_cases (attempt 0) with acked | hard | retried
    · rw [acked]
      exact .success (le_rfl) (fun k none => absurd none (Nat.not_lt_zero k)) acked
    · exact .failure (le_rfl) (fun k none => absurd none (Nat.not_lt_zero k)) hard
    · have first : kept attempt 1 = (attempt 0).err := by simp [kept]
      rw [← first]
      exact .spent fun k small => Nat.lt_one_iff.mp small ▸ retried
  · obtain ⟨started_lt, due⟩ := budget
    obtain ⟨n, within, r, terminal, ran⟩ := Loop.run_ends (writeTurn c clock attempt)
      ⟨0, enter c clock c.writeTimeout, none⟩
      (fun n s => s = ⟨n, pace c clock c.writeTimeout n, kept attempt n⟩ ∧ n ≤ last + 1 ∧
        ∀ k < n, Retried (attempt k))
      (fun _ r => WriteTerminal attempt last r) (last + 2)
      ⟨rfl, Nat.zero_le _, fun k none => absurd none (Nat.not_lt_zero k)⟩
      (by
        rintro n s ⟨rfl, within, before⟩
        rcases writeTurn_cases within started_lt due before with ended | ⟨small, retried, next⟩
        · exact .inl ended
        · exact .inr ⟨_, next, rfl, Nat.succ_le_succ small,
            Nat.forall_lt_succ_right.mpr ⟨before, retried⟩⟩)
      (by
        rintro n s ⟨-, within, -⟩
        omega)
    exact ⟨r, terminal, fun fuel enough => (if_neg cleanCut).trans (ran fuel (by omega))⟩

theorem not_retried_of_hard {res : WriteAttempt} (hard : Hard res) : ¬ Retried res := by
  intro retried
  exact Bool.false_ne_true (hard.2.symm.trans retried.2)

theorem first_unique {j : Nat} (beforeI : ∀ k < i, Retried (attempt k))
    (endsI : ¬ Retried (attempt i)) (beforeJ : ∀ k < j, Retried (attempt k))
    (endsJ : ¬ Retried (attempt j)) : i = j := by
  rcases Nat.lt_trichotomy i j with lower | same | higher
  · exact absurd (beforeJ i lower) endsI
  · exact same
  · exact absurd (beforeI j higher) endsJ

section

variable (terminal : WriteTerminal attempt last r)
include terminal

theorem WriteTerminal.err_eq_none_iff :
    r.err = none ↔ ∃ i ≤ last, (attempt i).err = none ∧ ∀ k < i, ¬ Hard (attempt k) := by
  cases terminal with
  | success within before acked =>
    exact iff_of_true rfl
      ⟨_, within, acked, fun k lower hard => not_retried_of_hard hard (before k lower)⟩
  | @failure j within before failed =>
    refine iff_of_false failed.1 ?_
    rintro ⟨i, -, acked, soft⟩
    rcases Nat.lt_trichotomy i j with lower | rfl | higher
    · exact (before i lower).1 acked
    · exact failed.1 acked
    · exact soft j higher failed
  | spent all =>
    refine iff_of_false (kept_ne_none all) ?_
    rintro ⟨i, within, acked, -⟩
    exact (all i (Nat.lt_succ_of_le within)).1 acked

theorem WriteTerminal.eq_of_hard (within : i ≤ last) (hard : Hard (attempt i))
    (first : ∀ k < i, Retried (attempt k)) : r = ⟨(attempt i).err, i + 1⟩ := by
  have ends := not_retried_of_hard hard
  cases terminal with
  | success _ before acked =>
    obtain rfl := first_unique first ends before fun retried => retried.1 acked
    exact absurd acked hard.1
  | failure _ before failed =>
    obtain rfl := first_unique first ends before (not_retried_of_hard failed)
    rfl
  | spent all => exact absurd (all i (Nat.lt_succ_of_le within)) ends

theorem WriteTerminal.eq_of_retried (all : ∀ i ≤ last, Retried (attempt i)) :
    r = ⟨kept attempt (last + 1), last + 1⟩ := by
  cases terminal with
  | success within _ acked => exact absurd acked (all _ within).1
  | failure within _ failed => exact absurd (all _ within) (not_retried_of_hard failed)
  | spent => rfl

end

theorem kept_eq_of_evidence (lower : i < n) (erred : (attempt i).err ≠ none)
    (evidence : (attempt i).noLegEvidence = false)
    (silent : ∀ k, i < k → k < n → (attempt k).noLegEvidence = true) :
    kept attempt n = (attempt i).err := by
  induction n with
  | zero => exact absurd lower (Nat.not_lt_zero i)
  | succ n ih =>
    rw [kept]
    rcases Nat.lt_or_eq_of_le (Nat.le_of_lt_succ lower) with earlier | rfl
    · have same := ih earlier fun k above below => silent k above (Nat.lt_succ_of_lt below)
      have blank := silent n earlier (Nat.lt_succ_self n)
      rw [same, blank, isNone_of_erred erred]
      rfl
    · rw [evidence]
      rfl

theorem kept_eq_first (erred : (attempt 0).err ≠ none)
    (silent : ∀ k < n + 1, (attempt k).noLegEvidence = true) :
    kept attempt (n + 1) = (attempt 0).err := by
  induction n with
  | zero => simp [kept]
  | succ n ih =>
    have same := ih fun k below => silent k (Nat.lt_succ_of_lt below)
    rw [kept, same, silent (n + 1) (Nat.lt_succ_self _), isNone_of_erred erred]
    rfl

end WriteLemmas

namespace ReadErr

variable {err : ReadErr}

theorem is_mono {narrow wide : ReadErr → Bool} (le : ∀ e, narrow e = true → wide e = true)
    (holds : err.is narrow = true) : err.is wide = true := by
  induction err with
  | op | deadlineExceeded | errAcquiring => exact le _ holds
  | wrap _ _ ih | unreachableOnly _ ih => exact ih holds
  | join left right ihLeft ihRight =>
    simp only [is, Bool.or_eq_true] at holds ⊢
    exact holds.imp ihLeft ihRight

theorem isErrAcquiring_of_isAcquiringErr (acquiring : err.isAcquiringErr = true) :
    err.isErrAcquiring = true := by
  refine is_mono (fun e tagged => ?_) acquiring
  split at tagged
  · rfl
  · cases tagged

theorem is_of_asUnreachableOnly {target : ReadErr → Bool} {inner : ReadErr}
    (marked : err.asUnreachableOnly = some inner) (holds : inner.is target = true) :
    err.is target = true := by
  induction err with
  | op | deadlineExceeded | errAcquiring => cases marked
  | wrap _ _ ih => exact ih marked
  | unreachableOnly _ => exact Option.some.inj marked ▸ holds
  | join left right ihLeft ihRight =>
    simp only [asUnreachableOnly, Option.or_eq_some_iff] at marked
    simp only [is, Bool.or_eq_true]
    rcases marked with first | ⟨-, second⟩
    · exact .inl (ihLeft first)
    · exact .inr (ihRight second)

theorem isErrAcquiring_of_unwrap (acquiring : err.unwrapUnreachableOnly.isErrAcquiring = true) :
    err.isErrAcquiring = true := by
  unfold unwrapUnreachableOnly at acquiring
  cases marked : err.asUnreachableOnly with
  | none => rwa [marked] at acquiring
  | some inner =>
    rw [marked] at acquiring
    exact is_of_asUnreachableOnly marked acquiring

theorem unwrapUnreachableOnly_of_unmarked (unmarked : ¬ err.isUnreachableOnly) :
    err.unwrapUnreachableOnly = err := by
  have none : err.asUnreachableOnly = none := by simpa [isUnreachableOnly] using unmarked
  rw [unwrapUnreachableOnly, none, Option.getD_none]

theorem attributeToAcquiring_asUnreachableOnly (err : ReadErr) (sawAcquiring : Bool) :
    (err.attributeToAcquiring sawAcquiring).asUnreachableOnly = err.asUnreachableOnly := by
  unfold attributeToAcquiring
  split_ifs
  · rfl
  · rfl
  · rfl
  · exact Option.or_none

theorem isErrAcquiring_of_attributeToAcquiring {sawAcquiring : Bool}
    (acquiring : (err.attributeToAcquiring sawAcquiring).isErrAcquiring = true) :
    err.isErrAcquiring = true ∨ sawAcquiring = true ∧ err.isDeadlineErr = true := by
  unfold attributeToAcquiring at acquiring
  split_ifs at acquiring with unseen matched other
  · exact .inl acquiring
  · exact .inl acquiring
  · exact .inl acquiring
  · exact .inr ⟨by simpa using unseen, by simpa using other⟩

end ReadErr

namespace Sweep

variable {T : Type}

def acquiring (s : Sweep T) : Bool := s.err.any ReadErr.isAcquiringErr

def unreachableOnly (s : Sweep T) : Bool := s.err.any ReadErr.isUnreachableOnly

/-- The outcome asks for another attempt. -/
def Repolled (s : Sweep T) : Prop := s.acquiring = true ∨ s.unreachableOnly = true

/-- The outcome counts towards the grace. -/
def Unreachable (s : Sweep T) : Prop := s.acquiring = false ∧ s.unreachableOnly = true

/-- The error of the attempt, without the marker. -/
def terminal (s : Sweep T) : Option ReadErr := s.err.map ReadErr.unwrapUnreachableOnly

theorem terminal_unmarked {s : Sweep T} {e : ReadErr} (terminal : s.terminal = some e) :
    e.asUnreachableOnly = none := by
  obtain ⟨err, returned, rfl⟩ := Option.map_eq_some_iff.mp terminal
  unfold ReadErr.unwrapUnreachableOnly
  cases marked : err.asUnreachableOnly with
  | none => exact marked
  | some inner => exact s.marks_leg err returned inner marked

end Sweep

section ReadLemmas

variable {T : Type} {c : Config} {clock : Clock} {attempt : Nat → Sweep T} {last : Nat}

def GraceEnds (c : Config) (clock : Clock) (attempt : Nat → Sweep T) (i : Nat) : Prop :=
  ∃ k ≤ i, (∀ m, k ≤ m → m ≤ i → (attempt m).Unreachable) ∧
    unreachableOnlyGrace ≤ ended c clock c.readTimeout i - ended c clock c.readTimeout k

def ReadBudgetEnds (c : Config) (clock : Clock) (last : Nat) : Prop :=
  if c.testingForceCleanCut then last = 0
  else (∀ i < last, ended c clock c.readTimeout i < clock.called + c.readTimeout) ∧
    clock.called + c.readTimeout ≤ ended c clock c.readTimeout last

/-- How a read ends with its attempt `i`: no attempt before it was to be the last; the value is
that of the attempt; and the error is that of the attempt without the marker, to which the reason
is added only if it is a deadline and an attempt was refused as acquiring. -/
structure ReadTerminal (c : Config) (clock : Clock) (attempt : Nat → Sweep T) (last i : Nat)
    (r : ReadEnd T) : Prop where
  within : i ≤ last
  attempts : r.attempts = i + 1
  before : ∀ k < i, (attempt k).Repolled ∧ ¬ GraceEnds c clock attempt k
  reason : ¬ (attempt i).Repolled ∨ i = last ∨ GraceEnds c clock attempt i
  value : r.value = (attempt i).value
  error : ∃ saw, (saw = true → ∃ k ≤ i, (attempt k).acquiring = true) ∧
    r.err = (attempt i).terminal.map fun e => e.attributeToAcquiring saw

/-- What the variables of the loop say about the first `n` attempts. -/
structure Heard (c : Config) (clock : Clock) (attempt : Nat → Sweep T) (n : Nat)
    (sawAcquiring : Bool) (runStart : Option Nat) : Prop where
  before : ∀ k < n, (attempt k).Repolled ∧ ¬ GraceEnds c clock attempt k
  saw : sawAcquiring = true → ∃ k < n, (attempt k).acquiring = true
  run_mem : ∀ t, runStart = some t → ∃ k < n, t = ended c clock c.readTimeout k ∧
    ∀ m, k ≤ m → m < n → (attempt m).Unreachable
  run_max : ∀ k < n, (∀ m, k ≤ m → m < n → (attempt m).Unreachable) →
    ∃ t, runStart = some t ∧ t ≤ ended c clock c.readTimeout k

theorem heard_start : Heard c clock attempt 0 false none := by
  refine ⟨?_, ?_, ?_, ?_⟩
  · intro k none
    exact absurd none (Nat.not_lt_zero k)
  · intro saw
    cases saw
  · intro t started
    cases started
  · intro k none
    exact absurd none (Nat.not_lt_zero k)

variable {runStart : Option Nat} {n : Nat} {saw : Bool}

section

variable (heard : Heard c clock attempt n saw runStart)
include heard

theorem Heard.acquiring (refused : (attempt n).acquiring = true) :
    Heard c clock attempt (n + 1) true none := by
  have reachable : ¬ (attempt n).Unreachable := by
    intro unreachable
    exact Bool.false_ne_true (unreachable.1.symm.trans refused)
  refine ⟨Nat.forall_lt_succ_right.mpr ⟨heard.before, .inl refused, ?_⟩,
    fun _ => ⟨n, Nat.lt_succ_self n, refused⟩, ?_, ?_⟩
  · rintro ⟨k, within, run, -⟩
    exact reachable (run n within le_rfl)
  · intro t started
    cases started
  · intro k within run
    exact absurd (run n (Nat.le_of_lt_succ within) (Nat.lt_succ_self n)) reachable

theorem Heard.graceEnds_iff (unreachable : (attempt n).Unreachable) :
    GraceEnds c clock attempt n ↔ unreachableOnlyGrace ≤ ended c clock c.readTimeout n -
      runStart.getD (ended c clock c.readTimeout n) := by
  constructor
  · rintro ⟨k, within, run, grace⟩
    rcases Nat.lt_or_eq_of_le within with lower | rfl
    · obtain ⟨t, rfl, early⟩ := heard.run_max k lower fun m above below =>
        run m above (Nat.le_of_lt below)
      rw [Option.getD_some]
      omega
    · rw [Nat.sub_self] at grace
      exact absurd grace (by decide)
  · intro grace
    cases started : runStart with
    | none =>
      rw [started, Option.getD_none, Nat.sub_self] at grace
      exact absurd grace (by decide)
    | some t =>
      obtain ⟨k, lower, rfl, run⟩ := heard.run_mem t started
      rw [started, Option.getD_some] at grace
      refine ⟨k, Nat.le_of_lt lower, fun m above below => ?_, grace⟩
      rcases Nat.lt_or_eq_of_le below with earlier | rfl
      · exact run m above earlier
      · exact unreachable

theorem Heard.unreachable (unreachable : (attempt n).Unreachable)
    (grace : ¬ GraceEnds c clock attempt n) :
    Heard c clock attempt (n + 1) saw (some (runStart.getD (ended c clock c.readTimeout n))) := by
  refine ⟨Nat.forall_lt_succ_right.mpr ⟨heard.before, .inr unreachable.2, grace⟩, ?_, ?_, ?_⟩
  · intro seen
    obtain ⟨k, lower, refused⟩ := heard.saw seen
    exact ⟨k, Nat.lt_succ_of_lt lower, refused⟩
  · rintro t ⟨⟩
    cases started : runStart with
    | none =>
      refine ⟨n, Nat.lt_succ_self n, rfl, fun m above below => ?_⟩
      obtain rfl : m = n := by omega
      exact unreachable
    | some t =>
      obtain ⟨k, lower, same, run⟩ := heard.run_mem t started
      refine ⟨k, Nat.lt_succ_of_lt lower, same, fun m above below => ?_⟩
      rcases Nat.lt_or_eq_of_le (Nat.le_of_lt_succ below) with earlier | rfl
      · exact run m above earlier
      · exact unreachable
  · intro k within run
    refine ⟨_, rfl, ?_⟩
    rcases Nat.lt_or_eq_of_le (Nat.le_of_lt_succ within) with lower | rfl
    · obtain ⟨t, rfl, early⟩ := heard.run_max k lower fun m above below =>
        run m above (Nat.lt_succ_of_lt below)
      exact early
    · cases started : runStart with
      | none => exact le_rfl
      | some t =>
        obtain ⟨first, lower, rfl, -⟩ := heard.run_mem t started
        exact ended_mono c clock c.readTimeout (Nat.le_of_lt lower)

end

structure ReadInv (c : Config) (clock : Clock) (attempt : Nat → Sweep T) (last n : Nat)
    (s : ReadLoop) : Prop where
  made : s.made = n
  pace : s.pace = pace c clock c.readTimeout n
  within : n ≤ last
  heard : Heard c clock attempt n s.sawAcquiring s.unreachableRunStart

theorem repoll_cases {s : ReadLoop} {err : ReadErr} (made : s.made = n)
    (paced : s.pace = pace c clock c.readTimeout n) (within : n ≤ last)
    (ended_lt : ∀ i < last, ended c clock c.readTimeout i < clock.called + c.readTimeout)
    (due : clock.called + c.readTimeout ≤ ended c clock c.readTimeout last)
    (heard : Heard c clock attempt (n + 1) s.sawAcquiring s.unreachableRunStart)
    (erred : (attempt n).err = some err) :
    (∃ r, repoll clock s (attempt n).value err = .inl r ∧
        ReadTerminal c clock attempt last n r) ∨
      ∃ next, repoll clock s (attempt n).value err = .inr next ∧
        ReadInv c clock attempt last (n + 1) next := by
  unfold repoll
  rw [made, paced]
  rcases wait_cases c clock c.readTimeout n with ⟨late, waited⟩ | ⟨early, waited⟩
  · have final : n = last := by
      by_contra earlier
      exact absurd late (Nat.not_le.mpr (ended_lt n (by omega)))
    rw [waited]
    refine .inl ⟨_, rfl, within, rfl, ?_, .inr (.inl final), rfl, s.sawAcquiring, ?_, ?_⟩
    · exact fun k lower => heard.before k (Nat.lt_succ_of_lt lower)
    · intro seen
      obtain ⟨k, lower, refused⟩ := heard.saw seen
      exact ⟨k, Nat.le_of_lt_succ lower, refused⟩
    · rw [Sweep.terminal, erred]
      rfl
  · have more : n + 1 ≤ last := by
      by_contra later
      obtain rfl : n = last := by omega
      omega
    rw [waited]
    exact .inr ⟨_, rfl, rfl, rfl, more, heard⟩

theorem readTurn_cases {s : ReadLoop} (inv : ReadInv c clock attempt last n s)
    (ended_lt : ∀ i < last, ended c clock c.readTimeout i < clock.called + c.readTimeout)
    (due : clock.called + c.readTimeout ≤ ended c clock c.readTimeout last) :
    (∃ r, readTurn clock attempt s = .inl r ∧ ReadTerminal c clock attempt last n r) ∨
      ∃ next, readTurn clock attempt s = .inr next ∧ ReadInv c clock attempt last (n + 1) next := by
  obtain ⟨made, paced, within, heard⟩ := inv
  have returned : s.pace.now + clock.took s.made = ended c clock c.readTimeout n := by
    rw [made, paced]
    rfl
  unfold readTurn
  dsimp only
  rw [returned, made]
  cases erred : (attempt n).err with
  | none =>
    have ends : ¬ (attempt n).Repolled := by
      simp [Sweep.Repolled, Sweep.acquiring, Sweep.unreachableOnly, erred]
    refine .inl ⟨_, rfl, within, rfl, heard.before, .inl ends, rfl, false, ?_, ?_⟩
    · intro seen
      cases seen
    · rw [Sweep.terminal, erred]
      rfl
  | some err =>
    dsimp only
    by_cases acquiring : err.isAcquiringErr = true
    · have refused : (attempt n).acquiring = true := by
        simp [Sweep.acquiring, erred, acquiring]
      rw [if_pos acquiring]
      exact repoll_cases rfl paced within ended_lt due (heard.acquiring refused) erred
    · rw [if_neg acquiring]
      have other : (attempt n).acquiring = false := by
        simp [Sweep.acquiring, erred, acquiring]
      by_cases marked : err.isUnreachableOnly = true
      · have unreachable : (attempt n).Unreachable :=
          ⟨other, by simp [Sweep.unreachableOnly, erred, marked]⟩
        have grace := heard.graceEnds_iff unreachable
        rw [if_pos marked]
        split_ifs with spent
        · refine .inl ⟨_, rfl, within, rfl, heard.before, .inr (.inr (grace.mpr spent)), rfl,
            false, ?_, ?_⟩
          · intro seen
            cases seen
          · rw [Sweep.terminal, erred]
            rfl
        · exact repoll_cases rfl paced within ended_lt due
            (heard.unreachable unreachable (mt grace.mp spent)) erred
      · rw [if_neg marked]
        have ends : ¬ (attempt n).Repolled := by
          simp [Sweep.Repolled, Sweep.acquiring, Sweep.unreachableOnly, erred, acquiring, marked]
        refine .inl ⟨_, rfl, within, rfl, heard.before, .inl ends, rfl, s.sawAcquiring, ?_, ?_⟩
        · intro seen
          obtain ⟨k, lower, refused⟩ := heard.saw seen
          exact ⟨k, Nat.le_of_lt lower, refused⟩
        · rw [Sweep.terminal, erred, Option.map_some,
            ReadErr.unwrapUnreachableOnly_of_unmarked marked]
          rfl

variable (attempt) in
theorem retryReadThroughHandoff_ends (budget : ReadBudgetEnds c clock last) :
    ∃ i r, ReadTerminal c clock attempt last i r ∧
      ∀ fuel, last < fuel → retryReadThroughHandoff c clock attempt fuel = some r := by
  unfold ReadBudgetEnds at budget
  split_ifs at budget with cleanCut
  · subst budget
    refine ⟨0, _, ⟨le_rfl, rfl, ?_, .inr (.inl rfl), rfl, false, ?_, ?_⟩,
      fun _ _ => if_pos cleanCut⟩
    · intro k none
      exact absurd none (Nat.not_lt_zero k)
    · intro seen
      cases seen
    · exact Option.map_id'.symm
  · obtain ⟨ended_lt, due⟩ := budget
    obtain ⟨n, within, r, terminal, ran⟩ := Loop.run_ends (readTurn clock attempt)
      ⟨0, enter c clock c.readTimeout, none, false⟩ (ReadInv c clock attempt last)
      (ReadTerminal c clock attempt last) (last + 1) ⟨rfl, rfl, Nat.zero_le _, heard_start⟩
      (fun n s inv => readTurn_cases inv ended_lt due)
      (fun n s inv => Nat.lt_succ_of_le inv.within)
    exact ⟨n, r, terminal, fun fuel enough => (if_neg cleanCut).trans (ran fuel (by omega))⟩

namespace ReadTerminal

variable {i : Nat} {r : ReadEnd T}

section

variable (terminal : ReadTerminal c clock attempt last i r)
include terminal

theorem err_eq_none_iff : r.err = none ↔ (attempt i).err = none := by
  obtain ⟨saw, -, error⟩ := terminal.error
  rw [error, Sweep.terminal, Option.map_eq_none_iff, Option.map_eq_none_iff]

theorem unmarked : ∀ e ∈ r.err, e.isUnreachableOnly = false := by
  intro e returned
  obtain ⟨saw, -, error⟩ := terminal.error
  rw [error] at returned
  obtain ⟨bare, ended, rfl⟩ := Option.map_eq_some_iff.mp returned
  rw [ReadErr.isUnreachableOnly, ReadErr.attributeToAcquiring_asUnreachableOnly,
    Sweep.terminal_unmarked ended]
  rfl

theorem acquiring (matched : r.err.any ReadErr.isErrAcquiring = true) :
    (attempt i).err.any ReadErr.isErrAcquiring = true ∨
      (∃ k ≤ i, (attempt k).err.any ReadErr.isErrAcquiring = true) ∧
        (attempt i).terminal.any ReadErr.isDeadlineErr = true := by
  obtain ⟨saw, seen, error⟩ := terminal.error
  obtain ⟨e, returned, acquiring⟩ := (Option.any_eq_true _ _).mp matched
  rw [error] at returned
  obtain ⟨bare, ended, rfl⟩ := Option.map_eq_some_iff.mp returned
  rcases ReadErr.isErrAcquiring_of_attributeToAcquiring acquiring with own | ⟨saw, deadline⟩
  · obtain ⟨err, erred, rfl⟩ := Option.map_eq_some_iff.mp ended
    exact .inl ((Option.any_eq_true _ _).mpr ⟨err, erred, ReadErr.isErrAcquiring_of_unwrap own⟩)
  · obtain ⟨k, within, refused⟩ := seen saw
    obtain ⟨err, erred, tagged⟩ := (Option.any_eq_true _ _).mp refused
    exact .inr ⟨⟨k, within, (Option.any_eq_true _ _).mpr
      ⟨err, erred, ReadErr.isErrAcquiring_of_isAcquiringErr tagged⟩⟩,
      (Option.any_eq_true _ _).mpr ⟨bare, ended, deadline⟩⟩

end

end ReadTerminal

end ReadLemmas

/-- **A retry ends with the evidence of its attempts.** Once the budget is spent both calls have
returned: a write with its first success or hard failure, and else with the last evidence of a
refusal; a read with the first attempt that settles it, never with the marker, and with
`ErrAcquiring` only if an attempt was. -/
theorem retry_ends_with_evidence {T : Type} (c : Config) (clock : Clock) :
    (∀ (attempt : Nat → WriteAttempt) (last : Nat), WriteBudgetEnds c clock last →
      ∃ r, (∀ fuel, last + 1 < fuel → retryWriteThroughHandoff c clock attempt fuel = some r) ∧
        (r.err = none ↔
          ∃ i ≤ last, (attempt i).err = none ∧ ∀ k < i, ¬ Hard (attempt k)) ∧
        (∀ i ≤ last, Hard (attempt i) → (∀ k < i, Retried (attempt k)) →
          r = ⟨(attempt i).err, i + 1⟩) ∧
        ((∀ i ≤ last, Retried (attempt i)) →
          (∀ i ≤ last, (attempt i).noLegEvidence = false →
            (∀ k, i < k → k ≤ last → (attempt k).noLegEvidence = true) →
            r.err = (attempt i).err) ∧
          ((∀ i ≤ last, (attempt i).noLegEvidence = true) → r.err = (attempt 0).err))) ∧
    (∀ (attempt : Nat → Sweep T) (last : Nat), ReadBudgetEnds c clock last →
      ∃ r, (∀ fuel, last < fuel → retryReadThroughHandoff c clock attempt fuel = some r) ∧
        ∃ i ≤ last, r.attempts = i + 1 ∧ r.value = (attempt i).value ∧
          (∀ k < i, (attempt k).Repolled ∧ ¬ GraceEnds c clock attempt k) ∧
          (¬ (attempt i).Repolled ∨ i = last ∨ GraceEnds c clock attempt i) ∧
          (r.err = none ↔ (attempt i).err = none) ∧
          (∀ e ∈ r.err, e.isUnreachableOnly = false) ∧
          (r.err.any ReadErr.isErrAcquiring = true →
            (attempt i).err.any ReadErr.isErrAcquiring = true ∨
              (∃ k ≤ i, (attempt k).err.any ReadErr.isErrAcquiring = true) ∧
                (attempt i).terminal.any ReadErr.isDeadlineErr = true)) := by
  constructor
  · intro attempt last budget
    obtain ⟨r, terminal, ran⟩ := retryWriteThroughHandoff_ends attempt budget
    refine ⟨r, ran, terminal.err_eq_none_iff, fun i within hard first =>
      terminal.eq_of_hard within hard first, fun all => ?_⟩
    rw [terminal.eq_of_retried all]
    refine ⟨fun i within evidence silent => ?_, fun silent => ?_⟩
    · exact kept_eq_of_evidence (Nat.lt_succ_of_le within) (all i within).1 evidence
        fun k above below => silent k above (Nat.le_of_lt_succ below)
    · exact kept_eq_first (all 0 (Nat.zero_le _)).1 fun k below =>
        silent k (Nat.le_of_lt_succ below)
  · intro attempt last budget
    obtain ⟨i, r, terminal, ran⟩ := retryReadThroughHandoff_ends attempt budget
    exact ⟨r, ran, i, terminal.within, terminal.attempts, terminal.value, terminal.before,
      terminal.reason, terminal.err_eq_none_iff, terminal.unmarked, terminal.acquiring⟩

def slowAttempts : Clock := ⟨0, 0, fun _ => 600000000, fun _ interval => interval / 2, fun _ => 0⟩

def oneSecond : Config := ⟨1000000000, 1000000000, 50, false⟩

def cutShort : Nat → WriteAttempt
  | 0 => ⟨some (.status .unavailable true "replicas mid-acquire"), true, false⟩
  | _ => ⟨some (.status .unavailable false "no replica answered"), true, true⟩

def runOut : Nat → Sweep Unit
  | 0 => ⟨(), some (.op (WriteRefusal.errUnitAcquiring "Get")), by rintro _ ⟨⟩ _ ⟨⟩⟩
  | _ => ⟨(), some .deadlineExceeded, by rintro _ ⟨⟩ _ ⟨⟩⟩

theorem retry_ends_with_evidence_slow :
    WriteBudgetEnds oneSecond slowAttempts 1 ∧ ReadBudgetEnds oneSecond slowAttempts 1 ∧
      (∃ r, retryWriteThroughHandoff oneSecond slowAttempts cutShort 3 = some r ∧
        r.err = (cutShort 0).err) ∧
      ∃ r, retryReadThroughHandoff oneSecond slowAttempts runOut 2 = some r ∧
        ∀ e ∈ r.err, e.isUnreachableOnly = false := by
  have writeBudget : WriteBudgetEnds oneSecond slowAttempts 1 := ⟨by decide, by decide⟩
  have readBudget : ReadBudgetEnds oneSecond slowAttempts 1 := ⟨by decide, by decide⟩
  have retried : ∀ i ≤ 1, Retried (cutShort i) := by
    intro i _
    cases i with
    | zero => exact ⟨Option.some_ne_none _, rfl⟩
    | succ => exact ⟨Option.some_ne_none _, rfl⟩
  have silent : ∀ k, 0 < k → k ≤ 1 → (cutShort k).noLegEvidence = true := by
    rintro (_ | k) later _
    · exact absurd later (Nat.lt_irrefl 0)
    · rfl
  obtain ⟨writes, reads⟩ := retry_ends_with_evidence oneSecond slowAttempts
  obtain ⟨written, wrote, -, -, refused⟩ := writes cutShort 1 writeBudget
  obtain ⟨read, ran, -, -, -, -, -, -, -, unmarked, -⟩ := reads runOut 1 readBudget
  exact ⟨writeBudget, readBudget,
    ⟨written, wrote 3 (by decide), (refused retried).1 0 (by decide) rfl silent⟩,
    read, ran 2 (by decide), unmarked⟩

end Shale.HandoffRetry
