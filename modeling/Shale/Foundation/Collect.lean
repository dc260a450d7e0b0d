import Mathlib.Data.List.Basic

/-!
# Collecting reports up to a decision or a deadline

Legs are started together and report after a delay of their own, or not at all. A collector
counts the reports as they arrive and returns as soon as those it has counted decide, or at its
deadline. If reports never undo a decision, then it returns no earlier than a given time exactly
if what has arrived before that time does not decide.
-/

namespace Shale.Collect

open List

variable {Leg : Type} (delay : Leg → Option Nat)

def NoLater (first second : Leg) : Prop :=
  ∀ later, delay second = some later → ∃ earlier, delay first = some earlier ∧ earlier ≤ later

instance (first second : Leg) : Decidable (NoLater delay first second) :=
  decidable_of_iff
    ((delay second).all (fun later => (delay first).any fun earlier => decide (earlier ≤ later)) =
      true)
    (by unfold NoLater; cases delay second <;> cases delay first <;> simp)

def reportsBefore (start time : Nat) (leg : Leg) : Bool :=
  (delay leg).any fun d => decide (start + d < time)

def arrived (start time : Nat) (legs : List Leg) : List Leg :=
  legs.filter (reportsBefore delay start time)

structure Collected (Leg : Type) where
  returned : Nat
  counted : List Leg

def collect (stop : List Leg → Bool) (start deadline : Nat) (counted : List Leg) :
    List Leg → Collected Leg
  | [] => ⟨max start deadline, counted⟩
  | leg :: rest =>
    match delay leg with
    | none => ⟨max start deadline, counted⟩
    | some d =>
      if start + d < deadline then
        if stop (counted ++ [leg]) then ⟨start + d, counted ++ [leg]⟩
        else collect stop start deadline (counted ++ [leg]) rest
      else ⟨max start deadline, counted⟩

inductive Ends (stop : List Leg → Bool) (start deadline : Nat) (legs : List Leg) :
    Collected Leg → Prop where
  | decided {before after : List Leg} {leg : Leg} {d : Nat} (split : legs = before ++ leg :: after)
      (reports : delay leg = some d) (inTime : start + d < deadline)
      (undecided : stop before = false) (decides : stop (before ++ [leg]) = true) :
      Ends stop start deadline legs ⟨start + d, before ++ [leg]⟩
  | expired (undecided : stop (arrived delay start deadline legs) = false) :
      Ends stop start deadline legs ⟨max start deadline, arrived delay start deadline legs⟩

variable {delay} {stop : List Leg → Bool} {start deadline time : Nat} {legs : List Leg}

variable {leg : Leg} {after before counted : List Leg}

theorem reportsBefore_iff :
    reportsBefore delay start time leg = true ↔ ∃ d, delay leg = some d ∧ start + d < time := by
  unfold reportsBefore
  cases delay leg <;> simp

theorem NoLater.reportsBefore {first second : Leg} (order : NoLater delay first second)
    (arrives : reportsBefore delay start time second = true) :
    reportsBefore delay start time first = true := by
  obtain ⟨later, reports, before⟩ := reportsBefore_iff.mp arrives
  obtain ⟨earlier, own, le⟩ := order later reports
  exact reportsBefore_iff.mpr ⟨earlier, own, by omega⟩

theorem arrived_append_of_late (ordered : (before ++ leg :: after).Pairwise (NoLater delay))
    (late : reportsBefore delay start time leg = false) :
    arrived delay start time (before ++ leg :: after) = arrived delay start time before := by
  have later : ∀ other ∈ after, reportsBefore delay start time other = false := by
    intro other mem
    have order := rel_of_pairwise_cons (pairwise_append.mp ordered).2.1 mem
    rw [← Bool.not_eq_true] at late ⊢
    exact fun arrives => late (order.reportsBefore arrives)
  have none_later : after.filter (reportsBefore delay start time) = [] := by
    simpa [filter_eq_nil_iff] using later
  simp [arrived, late, none_later]

theorem arrived_append_of_reported (ordered : (before ++ leg :: after).Pairwise (NoLater delay))
    (arrives : reportsBefore delay start time leg = true) :
    arrived delay start time (before ++ leg :: after) =
      before ++ leg :: arrived delay start time after := by
  have earlier : ∀ other ∈ before, reportsBefore delay start time other = true := by
    intro other mem
    have order := (pairwise_append.mp ordered).2.2 other mem leg (mem_cons_self ..)
    exact order.reportsBefore arrives
  simp [arrived, arrives, filter_eq_self.mpr earlier]

theorem ends_expired (all : arrived delay start deadline legs = counted)
    (undecided : stop counted = false) :
    Ends delay stop start deadline legs ⟨max start deadline, counted⟩ := by
  subst all
  exact .expired undecided

theorem collect_ends {rest : List Leg} (ordered : (counted ++ rest).Pairwise (NoLater delay))
    (undecided : stop counted = false)
    (inTime : ∀ leg ∈ counted, reportsBefore delay start deadline leg = true) :
    Ends delay stop start deadline (counted ++ rest)
      (collect delay stop start deadline counted rest) := by
  have all_counted := filter_eq_self.mpr inTime
  induction rest generalizing counted with
  | nil => exact ends_expired (by rwa [append_nil]) undecided
  | cons leg after ih =>
    -- a leg that does not report in time is the end: no later one does
    have expires : reportsBefore delay start deadline leg = false →
        Ends delay stop start deadline (counted ++ leg :: after) ⟨max start deadline, counted⟩ :=
      fun late => ends_expired ((arrived_append_of_late ordered late).trans all_counted) undecided
    unfold collect
    split
    case h_1 silent => exact expires (by simp [reportsBefore, silent])
    case h_2 d reports =>
      split
      case isFalse late => exact expires (by simp [reportsBefore, reports, late])
      case isTrue early =>
        split
        case isTrue decides => exact .decided rfl reports early undecided decides
        case isFalse open_ =>
          have arrives : ∀ other ∈ counted ++ [leg],
              reportsBefore delay start deadline other = true := by
            intro other mem
            rcases mem_append.mp mem with old | new
            · exact inTime other old
            · rw [mem_singleton.mp new]
              exact reportsBefore_iff.mpr ⟨d, reports, early⟩
          have same : counted ++ leg :: after = counted ++ [leg] ++ after := by simp
          rw [same] at ordered ⊢
          exact ih ordered (Bool.not_eq_true _ ▸ open_) arrives
            (filter_eq_self.mpr arrives)

/-- Reports never undo a decision, up to all legs. -/
def Lasting (stop : List Leg → Bool) (legs : List Leg) : Prop :=
  ∀ {fewer more : List Leg}, fewer.Sublist more → more.Sublist legs → stop fewer = true →
    stop more = true

theorem arrived_sublist (start time : Nat) (legs : List Leg) :
    (arrived delay start time legs).Sublist legs :=
  filter_sublist

theorem arrived_mono {later : Nat} (le : time ≤ later) (start : Nat) (legs : List Leg) :
    (arrived delay start time legs).Sublist (arrived delay start later legs) := by
  refine monotone_filter_right legs fun leg arrives => ?_
  obtain ⟨d, reports, before⟩ := reportsBefore_iff.mp arrives
  exact reportsBefore_iff.mpr ⟨d, reports, by omega⟩

section Return

variable {result : Collected Leg} (ordered : legs.Pairwise (NoLater delay))
  (lasting : Lasting stop legs) (ends : Ends delay stop start deadline legs result)

include ends in
theorem start_le_returned : start ≤ result.returned := by
  cases ends with
  | decided => exact Nat.le_add_right ..
  | expired => exact Nat.le_max_left ..

include ordered lasting ends in
theorem le_returned_iff (within : time ≤ deadline ∨ result.returned < deadline) :
    time ≤ result.returned ↔ stop (arrived delay start time legs) = false := by
  cases ends with
  | @decided before after leg d split reports inTime undecided decides =>
    subst split
    dsimp only
    constructor
    · intro early
      have late : reportsBefore delay start time leg = false := by
        simp only [reportsBefore, reports, Option.any_some, decide_eq_false_iff_not]
        omega
      rw [arrived_append_of_late ordered late, ← Bool.not_eq_true]
      intro decided
      have fewer : before.Sublist (before ++ leg :: after) := sublist_append_left ..
      have still := lasting (arrived_sublist start time before) fewer decided
      rw [undecided] at still
      cases still
    · intro open_
      by_contra past
      have arrives : reportsBefore delay start time leg = true :=
        reportsBefore_iff.mpr ⟨d, reports, by omega⟩
      rw [arrived_append_of_reported ordered arrives, ← Bool.not_eq_true] at open_
      refine open_ (lasting ?_ ?_ decides)
      · simp
      · exact (append_sublist_append_left _).mpr ((arrived_sublist ..).cons_cons leg)
  | expired undecided =>
    dsimp only at within ⊢
    have within : time ≤ deadline := by omega
    refine iff_of_true (by omega) ?_
    rw [← Bool.not_eq_true] at undecided ⊢
    exact fun decided =>
      undecided (lasting (arrived_mono within start legs) (arrived_sublist ..) decided)

end Return

end Shale.Collect
