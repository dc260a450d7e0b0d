import Shale.Foundation.Machine
import Shale.Replication.WriteRefusal

/-!
# The goroutines of a fan-out

`fanout` of `replicate.go` as its goroutines interleave: each leg puts its result into `resultsCh`
when its operation returns; the accounting goroutine takes the results in that order, sends each
on to `outCh` and counts it; and the call returns the counts of some moment after the decision.

The counts at that moment depend on the order in which the legs return and on how far the
accounting has come. What `classifyWriteAttempt` makes of them does not.
-/

namespace Shale.FanoutRun

open WriteRefusal (OpError legsCarryReason)

/-- A fan-out: the legs are numbered below `legs`, `required` is the ack bar, and `outcome` is the
error with which the operation of a leg returns. -/
structure Fanout where
  legs : Nat
  required : Nat
  outcome : Nat → Option OpError

structure Counts where
  acks : Nat
  errs : List OpError
  transient : List OpError

/-- The legs still `running`, the contents of `resultsCh`, the result that has been sent on but
not counted, what has been sent to `outCh`, and how far the accounting has come. -/
structure State where
  running : List Nat
  results : List Nat
  holding : Option Nat
  out : List Nat
  outClosed : Bool
  counts : Counts
  isDecided : Bool
  drained : Bool

namespace Fanout

variable (f : Fanout)

def start : State where
  running := List.range f.legs
  results := []
  holding := none
  out := []
  outClosed := false
  counts := ⟨0, [], []⟩
  isDecided := false
  drained := false

/-- The accounting of one result, under the mutex. -/
def count (leg : Nat) (counts : Counts) : Counts :=
  match f.outcome leg with
  | none => { counts with acks := counts.acks + 1 }
  | some err =>
    if err.isTransientReplicaErr then { counts with transient := counts.transient ++ [err] }
    else { counts with errs := counts.errs ++ [err] }

def decides (counts : Counts) : Bool :=
  decide (clampAcks f.required f.legs ≤ counts.acks) ||
    decide (f.legs - clampAcks f.required f.legs < counts.errs.length)

/-- A leg returns; the accounting goroutine takes a result and sends it on, counts it, finds
`resultsCh` closed, and closes `outCh`. -/
inductive Action where
  | report (leg : Nat)
  | deliver
  | account
  | drain
  | close

def step (action : Action) (s : State) : Option State :=
  match action with
  | .report leg =>
    if leg ∈ s.running then
      some { s with running := s.running.erase leg, results := s.results ++ [leg] }
    else none
  | .deliver =>
    match s.holding, s.results with
    | none, leg :: rest =>
      some { s with holding := some leg, results := rest, out := s.out ++ [leg] }
    | _, _ => none
  | .account =>
    match s.holding with
    | none => none
    | some leg =>
      let counts := f.count leg s.counts
      some { s with holding := none, counts, isDecided := s.isDecided || f.decides counts }
  | .drain =>
    if s.running = [] ∧ s.results = [] ∧ s.holding = none ∧ s.drained = false then
      some { s with drained := true, isDecided := true }
    else none
  | .close =>
    if s.drained ∧ s.outClosed = false then some { s with outClosed := true } else none

def machine : Machine State Action := ⟨f.step⟩

/-- What one step can do. -/
inductive Moved (s : State) : State → Prop where
  | report {leg : Nat} (running : leg ∈ s.running) :
      Moved s { s with running := s.running.erase leg, results := s.results ++ [leg] }
  | deliver {leg : Nat} {rest : List Nat} (free : s.holding = none)
      (waiting : s.results = leg :: rest) :
      Moved s { s with holding := some leg, results := rest, out := s.out ++ [leg] }
  | account {leg : Nat} (held : s.holding = some leg) :
      Moved s { s with
        holding := none
        counts := f.count leg s.counts
        isDecided := s.isDecided || f.decides (f.count leg s.counts) }
  | drain (returned : s.running = []) (empty : s.results = []) (free : s.holding = none)
      (before : s.drained = false) : Moved s { s with drained := true, isDecided := true }
  | close (drained : s.drained = true) (opened : s.outClosed = false) :
      Moved s { s with outClosed := true }

def failure (leg : Nat) : Option OpError :=
  (f.outcome leg).filter fun err => !err.isTransientReplicaErr

def refusal (leg : Nat) : Option OpError :=
  (f.outcome leg).filter OpError.isTransientReplicaErr

def countsOf (done : List Nat) : Counts where
  acks := done.countP fun leg => (f.outcome leg).isNone
  errs := done.filterMap f.failure
  transient := done.filterMap f.refusal

/-- What holds along every run: each leg is running, waiting in `resultsCh` or sent on, and the
counts are those of the legs sent on, but for the one in hand. -/
structure Inv (s : State) : Prop where
  legs : (s.running ++ s.results ++ s.out).Perm (List.range f.legs)
  counted : ∃ done, s.out = done ++ s.holding.toList ∧ s.counts = f.countsOf done
  decided : s.isDecided = true → f.decides s.counts = true ∨ s.drained = true
  drained : s.drained = true → s.running = [] ∧ s.results = [] ∧ s.holding = none
  ended : s.drained = true → s.isDecided = true
  closed : s.outClosed = true → s.drained = true

variable {f} {s s' : State}

theorem moved_of_step {action : Action} (stepped : f.step action s = some s') : f.Moved s s' := by
  cases action with
  | report leg =>
    simp only [step] at stepped
    split_ifs at stepped with running
    cases stepped
    exact .report running
  | deliver =>
    simp only [step] at stepped
    split at stepped
    case h_1 leg rest free waiting =>
      cases stepped
      exact .deliver free waiting
    case h_2 => cases stepped
  | account =>
    simp only [step] at stepped
    split at stepped
    case h_1 => cases stepped
    case h_2 leg held =>
      cases stepped
      exact .account held
  | drain =>
    simp only [step] at stepped
    split_ifs at stepped with ended
    cases stepped
    exact .drain ended.1 ended.2.1 ended.2.2.1 ended.2.2.2
  | close =>
    simp only [step] at stepped
    split_ifs at stepped with ended
    cases stepped
    exact .close ended.1 ended.2

theorem inv_start : f.Inv f.start := by
  refine ⟨by simp [start], ⟨[], rfl, rfl⟩, ?_, ?_, ?_, ?_⟩
  · intro decided
    cases decided
  · intro drained
    cases drained
  · intro drained
    cases drained
  · intro closed
    cases closed

theorem count_countsOf (done : List Nat) (leg : Nat) :
    f.count leg (f.countsOf done) = f.countsOf (done ++ [leg]) := by
  unfold count countsOf failure refusal
  rw [List.countP_append, List.filterMap_append, List.filterMap_append]
  cases outcome : f.outcome leg with
  | none => simp [outcome]
  | some err =>
    by_cases refused : err.isTransientReplicaErr = true <;>
      simp [Option.filter_some, outcome, refused]

theorem decides_iff {counts : Counts} : f.decides counts = true ↔
    clampAcks f.required f.legs ≤ counts.acks ∨
      f.legs - clampAcks f.required f.legs < counts.errs.length := by
  simp [decides]

theorem acks_append (done later : List Nat) :
    (f.countsOf (done ++ later)).acks = (f.countsOf done).acks + (f.countsOf later).acks :=
  List.countP_append

theorem errs_append (done later : List Nat) :
    (f.countsOf (done ++ later)).errs = (f.countsOf done).errs ++ (f.countsOf later).errs :=
  List.filterMap_append

theorem decides_append {done : List Nat} (later : List Nat)
    (decides : f.decides (f.countsOf done) = true) :
    f.decides (f.countsOf (done ++ later)) = true := by
  rw [decides_iff] at decides ⊢
  rw [acks_append, errs_append, List.length_append]
  omega

theorem perm_report {leg : Nat} (running : leg ∈ s.running)
    (legs : (s.running ++ s.results ++ s.out).Perm (List.range f.legs)) :
    (s.running.erase leg ++ (s.results ++ [leg]) ++ s.out).Perm (List.range f.legs) := by
  refine List.Perm.trans (List.Perm.append_right _ ?_) legs
  rw [← List.append_assoc]
  refine (List.perm_append_singleton leg (s.running.erase leg ++ s.results)).trans ?_
  exact (List.perm_cons_erase running).symm.append_right s.results

theorem perm_deliver {leg : Nat} {rest : List Nat}
    (legs : (s.running ++ leg :: rest ++ s.out).Perm (List.range f.legs)) :
    (s.running ++ rest ++ (s.out ++ [leg])).Perm (List.range f.legs) := by
  refine List.Perm.trans ?_ legs
  rw [List.append_assoc, List.append_assoc, List.cons_append, ← List.append_assoc rest]
  exact (List.perm_append_singleton leg (rest ++ s.out)).append_left s.running

theorem Moved.inv (moved : f.Moved s s') (inv : f.Inv s) : f.Inv s' := by
  obtain ⟨done, sent, counted⟩ := inv.counted
  cases moved with
  | report running =>
    refine ⟨perm_report running inv.legs, inv.counted, inv.decided, ?_, inv.ended, inv.closed⟩
    intro drained
    rw [(inv.drained drained).1] at running
    cases running
  | deliver free waiting =>
    have legs := inv.legs
    rw [waiting] at legs
    rw [free] at sent
    refine ⟨perm_deliver legs, ⟨done, by simp [sent], counted⟩, inv.decided, ?_, inv.ended,
      inv.closed⟩
    intro drained
    rw [(inv.drained drained).2.1] at waiting
    cases waiting
  | @account leg held =>
    rw [held] at sent
    have added : f.count leg s.counts = f.countsOf (done ++ [leg]) := by
      rw [counted, count_countsOf]
    refine ⟨inv.legs, ⟨done ++ [leg], by simp [sent], added⟩, ?_, ?_, ?_, inv.closed⟩
    · intro decided
      rw [Bool.or_eq_true] at decided
      rcases decided with before | now
      · refine (inv.decided before).imp_left fun decides => ?_
        rw [counted] at decides
        exact added ▸ decides_append [leg] decides
      · exact .inl now
    · intro drained
      rw [(inv.drained drained).2.2] at held
      cases held
    · intro drained
      rw [inv.ended drained, Bool.true_or]
  | drain returned empty free =>
    exact ⟨inv.legs, inv.counted, fun _ => .inr rfl, fun _ => ⟨returned, empty, free⟩,
      fun _ => rfl, fun _ => rfl⟩
  | close drained =>
    exact ⟨inv.legs, inv.counted, inv.decided, inv.drained, inv.ended, fun _ => drained⟩

theorem inv_of_reaches (reached : f.machine.Reaches anyAction f.start s) : f.Inv s :=
  reached.invariant inv_start fun inv _ stepped => (moved_of_step stepped).inv inv

theorem length_eq_counts (done : List Nat) :
    done.length = (f.countsOf done).acks + (f.countsOf done).errs.length +
      (f.countsOf done).transient.length := by
  induction done with
  | nil => rfl
  | cons leg rest ih =>
    simp only [countsOf, List.length_cons, List.countP_cons, List.filterMap_cons, failure,
      refusal] at ih ⊢
    cases outcome : f.outcome leg with
    | none =>
      simp only [Option.isNone_none, ↓reduceIte, Option.filter_none]
      omega
    | some err =>
      by_cases refused : err.isTransientReplicaErr = true
      · simp [Option.filter_some, refused]
        omega
      · simp [Option.filter_some, refused]
        omega

theorem Inv.exists_missing (inv : f.Inv s) :
    ∃ done missing, s.counts = f.countsOf done ∧ (done ++ missing).Perm (List.range f.legs) ∧
      (s.drained = true → missing = []) := by
  obtain ⟨done, sent, counted⟩ := inv.counted
  refine ⟨done, s.holding.toList ++ (s.running ++ s.results), counted, ?_, fun drained => ?_⟩
  · have legs := inv.legs
    rw [sent] at legs
    rw [← List.append_assoc]
    exact List.perm_append_comm.trans legs
  · obtain ⟨running, results, holding⟩ := inv.drained drained
    simp [running, results, holding]

theorem countsOf_perm {left right : List Nat} (perm : left.Perm right) :
    (f.countsOf left).acks = (f.countsOf right).acks ∧
      (f.countsOf left).errs.Perm (f.countsOf right).errs ∧
      (f.countsOf left).transient.Perm (f.countsOf right).transient :=
  ⟨perm.countP_eq _, perm.filterMap _, perm.filterMap _⟩

def totals (f : Fanout) : Counts := f.countsOf (List.range f.legs)

theorem Inv.decided_totals (inv : f.Inv s) (low : 1 ≤ f.required) (high : f.required ≤ f.legs)
    (isDecided : s.isDecided = true) :
    (f.required ≤ s.counts.acks ↔ f.required ≤ f.totals.acks) ∧
      (s.counts.acks < f.required →
        (s.counts.errs = [] ↔ f.totals.errs = []) ∧
          (s.counts.errs = [] → s.counts.transient.Perm f.totals.transient)) := by
  obtain ⟨done, missing, counted, perm, all⟩ := inv.exists_missing
  obtain ⟨acks, errs, transient⟩ := f.countsOf_perm perm
  have length := f.length_eq_counts (List.range f.legs)
  rw [List.length_range] at length
  rw [counted]
  rcases inv.decided isDecided with decides | drained
  · have clamped : clampAcks f.required f.legs = f.required := by
      unfold clampAcks
      omega
    rw [decides_iff, clamped, counted] at decides
    have fewer := errs.length_eq
    rw [acks_append] at acks
    rw [errs_append, List.length_append] at fewer
    unfold totals
    refine ⟨by omega, fun short => ?_⟩
    have failed : 0 < (f.countsOf done).errs.length := by omega
    have anyFailed : 0 < (f.countsOf (List.range f.legs)).errs.length := by omega
    rw [List.length_pos_iff] at failed anyFailed
    exact ⟨iff_of_false failed anyFailed, fun none => absurd none failed⟩
  · rw [all drained, List.append_nil] at acks errs transient
    refine ⟨by rw [totals, acks], fun _ => ⟨?_, fun _ => transient⟩⟩
    rw [← List.length_eq_zero_iff, ← List.length_eq_zero_iff, errs.length_eq, totals]

theorem totals_errs_eq_nil : f.totals.errs = [] ↔ ∀ leg < f.legs, f.failure leg = none := by
  simp [totals, countsOf]

theorem totals_carry_reason : legsCarryReason f.totals.transient = true ↔
    ∃ leg < f.legs, ∃ err, f.refusal leg = some err ∧ err.isErrAcquiring = true := by
  simp only [legsCarryReason, totals, countsOf, List.any_eq_true, List.mem_filterMap,
    List.mem_range]
  constructor
  · rintro ⟨err, ⟨leg, dispatched, refused⟩, reason⟩
    exact ⟨leg, dispatched, err, refused, reason⟩
  · rintro ⟨leg, dispatched, err, refused, reason⟩
    exact ⟨err, ⟨leg, dispatched, refused⟩, reason⟩

theorem totals_transient_ne_nil (high : f.required ≤ f.legs) (short : f.totals.acks < f.required)
    (none : f.totals.errs = []) : f.totals.transient ≠ [] := by
  have length := f.length_eq_counts (List.range f.legs)
  rw [List.length_range] at length
  unfold totals at short none ⊢
  rw [none, List.length_nil] at length
  rw [← List.length_pos_iff]
  omega

theorem Inv.verdict (inv : f.Inv s) (low : 1 ≤ f.required) (high : f.required ≤ f.legs)
    (isDecided : s.isDecided = true) :
    let verdict := WriteRefusal.classifyWriteAttempt s.counts.acks f.required s.counts.errs
      s.counts.transient
    (verdict.err = none ↔ f.required ≤ f.totals.acks) ∧
      (verdict.retryable = true ↔ f.totals.acks < f.required ∧ f.totals.errs = []) ∧
      (verdict.err.any OpError.isErrAcquiring = true ↔
        verdict.retryable = true ∧ legsCarryReason f.totals.transient = true) ∧
      verdict.noLegEvidence = false := by
  obtain ⟨bar, rest⟩ := inv.decided_totals low high isDecided
  rcases WriteRefusal.classifyWriteAttempt_cases s.counts.acks f.required s.counts.errs
    s.counts.transient with ⟨met, attempt⟩ | ⟨short, clean, err, attempt, reason⟩ |
      ⟨short, failed, err, attempt, reason⟩
  · simp [attempt, bar.mp met]
  · obtain ⟨errs, refusals⟩ := rest short
    have missed : f.totals.acks < f.required := by omega
    have same : legsCarryReason s.counts.transient = legsCarryReason f.totals.transient :=
      (refusals clean).any_eq
    have heard : s.counts.transient.isEmpty = false := by
      rw [List.isEmpty_eq_false_iff, ← List.length_pos_iff, (refusals clean).length_eq,
        List.length_pos_iff]
      exact totals_transient_ne_nil high missed (errs.mp clean)
    simp [attempt, missed, errs.mp clean, reason, same, heard]
  · have missed : f.totals.acks < f.required := by omega
    have failures : f.totals.errs ≠ [] := fun none => failed ((rest short).1.mpr none)
    simp [attempt, missed, failures, reason]

/-- The steps that the goroutines still have to take. -/
def remaining (s : State) : Nat :=
  3 * s.running.length + 2 * s.results.length + s.holding.toList.length +
    (if s.drained then 0 else 1) + (if s.outClosed then 0 else 1)

theorem Moved.remaining_lt (moved : f.Moved s s') : remaining s' < remaining s := by
  unfold remaining
  cases moved with
  | report running =>
    have erased := List.length_erase_add_one running
    simp only [List.length_append, List.length_singleton]
    omega
  | deliver free waiting =>
    simp only [free, waiting, Option.toList_some, Option.toList_none, List.length_cons,
      List.length_nil]
    omega
  | account held =>
    simp only [held, Option.toList_some, Option.toList_none, List.length_cons, List.length_nil]
    omega
  | drain returned empty free before => simp [returned, empty, free, before]
  | close drained opened => simp [drained, opened]

theorem exists_step (opened : s.outClosed = false) : ∃ action s', f.step action s = some s' := by
  cases holding : s.holding with
  | some leg => exact ⟨.account, _, by simp only [step, holding]; rfl⟩
  | none =>
    cases results : s.results with
    | cons leg rest => exact ⟨.deliver, _, by simp only [step, holding, results]; rfl⟩
    | nil =>
      cases running : s.running with
      | cons leg rest =>
        exact ⟨.report leg, _, if_pos (running ▸ List.mem_cons_self)⟩
      | nil =>
        cases drained : s.drained with
        | false => exact ⟨.drain, _, if_pos ⟨running, results, holding, drained⟩⟩
        | true => exact ⟨.close, _, if_pos ⟨drained, opened⟩⟩

end Fanout

open Fanout Machine

/-- **The verdict on a write does not depend on the order of its legs.** Whatever they report, and
however far the accounting has come when the call returns, it is decided by how many legs ack, fail
hard and refuse. The channel yields every leg once, and is closed in the end. -/
theorem write_verdict_unordered (f : Fanout) (s : State) (low : 1 ≤ f.required)
    (high : f.required ≤ f.legs)
    (reached : f.machine.Reaches anyAction f.start s) :
    (s.isDecided = true →
      let verdict := WriteRefusal.classifyWriteAttempt s.counts.acks f.required s.counts.errs
        s.counts.transient
      (verdict.err = none ↔
        f.required ≤ (List.range f.legs).countP fun leg => (f.outcome leg).isNone) ∧
      (verdict.retryable = true ↔
        ((List.range f.legs).countP fun leg => (f.outcome leg).isNone) < f.required ∧
          ∀ leg < f.legs, f.failure leg = none) ∧
      (verdict.err.any OpError.isErrAcquiring = true ↔
        verdict.retryable = true ∧
          ∃ leg < f.legs, ∃ err, f.refusal leg = some err ∧ err.isErrAcquiring = true) ∧
      verdict.noLegEvidence = false) ∧
    s.out.Nodup ∧
    (s.outClosed = true → s.isDecided = true ∧ s.out.Perm (List.range f.legs)) ∧
    (s.outClosed = false → ∃ action next, f.machine.step action s = some next) ∧
    ∀ action next, f.machine.step action s = some next → remaining next < remaining s := by
  have inv := inv_of_reaches reached
  refine ⟨fun isDecided => ?_, ?_, fun closed => ?_, exists_step, fun _ _ stepped =>
    (moved_of_step stepped).remaining_lt⟩
  · rw [← totals_errs_eq_nil, ← totals_carry_reason]
    exact inv.verdict low high isDecided
  · have nodup := inv.legs.nodup_iff.mpr List.nodup_range
    exact nodup.of_append_right
  · have drained := inv.closed closed
    have legs := inv.legs
    obtain ⟨running, results, -⟩ := inv.drained drained
    rw [running, results] at legs
    exact ⟨inv.ended drained, legs⟩

def shortOfAcks : Fanout where
  legs := 3
  required := 2
  outcome
    | 0 => none
    | 1 => some (WriteRefusal.errUnitAcquiring "Put")
    | _ => some (.status .resourceExhausted false "migration in progress")

def lastLegFirst : List Action :=
  [.report 2, .deliver, .account, .report 1, .report 0, .deliver, .account, .deliver, .account,
    .drain]

theorem write_verdict_unordered_short :
    ∃ s, shortOfAcks.machine.Reaches anyAction shortOfAcks.start s ∧
      s.isDecided = true ∧
      (WriteRefusal.classifyWriteAttempt s.counts.acks 2 s.counts.errs
        s.counts.transient).retryable = true ∧
      (WriteRefusal.classifyWriteAttempt s.counts.acks 2 s.counts.errs
        s.counts.transient).err.any OpError.isErrAcquiring = true := by
  obtain ⟨s, reached, isDecided⟩ := shortOfAcks.machine.exists_reaches_of_run anyAction
    lastLegFirst shortOfAcks.start (fun s => s.isDecided = true) (by decide)
  obtain ⟨verdict, -⟩ := write_verdict_unordered shortOfAcks s (by decide) (by decide) reached
  obtain ⟨-, retried, acquiring, -⟩ := verdict isDecided
  have retryable := retried.mpr ⟨by decide, by decide⟩
  have reason := acquiring.mpr ⟨retryable, 1, by decide, _, rfl, rfl⟩
  exact ⟨s, reached, isDecided, retryable, reason⟩

end Shale.FanoutRun
