import Shale.Foundation.OrderedUnion
import Shale.Foundation.Quorum
import Shale.Replication.Fanout

/-!
# How many copies an acked write has

`putReplicatedUnit` retries attempts along the membership views of the writing node and
returns without an error once an attempt has counted its ack bar. The bar counts legs, and
a leg is a pair of a member and a replica position; the copies of a write are the
positions. In a membership transition the routed set joins two placements, so that one
position can stand under two members and be counted twice.
-/

namespace Shale

open List

open Function (comp_def)

/-- What happened in one attempt: the reports counted when `fanout` returned, by the index
of their leg and in the order they arrived; whether the deadline cut it short; and the
positions at which the envelope was applied or found superseded. -/
structure AttemptTrace where
  arrived : List (Nat × LegReport)
  expired : Bool
  applied : List ReplicaUnit
deriving DecidableEq

namespace AttemptTrace

def reports (trace : AttemptTrace) : List LegReport := trace.arrived.map Prod.snd

def acked (trace : AttemptTrace) : List Nat :=
  (trace.arrived.filter fun entry => entry.2 == .ack).map Prod.fst

/-- The trace is one of an attempt over `route`: every leg reports once, `fanout` returns
when it is decided or its deadline has passed, and a leg acks after its apply. -/
structure Follows (trace : AttemptTrace) (route : WriteRoute) : Prop where
  once : (trace.arrived.map Prod.fst).Nodup
  inRange : ∀ i ∈ trace.arrived.map Prod.fst, i < route.auth.length
  returned : trace.expired = true ∨
    decided route.auth.length route.bar trace.reports = true
  durable : ∀ ru ∈ entriesAt (route.auth.map RoutedReplica.ru) trace.acked,
    ru ∈ trace.applied

end AttemptTrace

def putReplicatedUnitAttempt (route : WriteRoute) (trace : AttemptTrace) : AttemptVerdict :=
  if route.auth = [] then .hard else classifyWriteAttempt (tally trace.reports) route.bar

/-- `putReplicatedUnit`, over the view of each attempt and what happened in it. On success
it yields the ack bar that was met and the positions applied so far; a run that ends in a
retryable attempt has used its budget up. -/
def putReplicatedUnit (wc : WriteConsistency) (h : ShardHash) :
    List (View × AttemptTrace) → Option (Nat × List ReplicaUnit)
  | [] => none
  | (v, trace) :: rest =>
    match putReplicatedUnitAttempt (v.writeRoute wc h) trace with
    | .acked => some ((v.writeRoute wc h).bar, trace.applied)
    | .hard => none
    | .retryable =>
      if trace.expired then none
      else (putReplicatedUnit wc h rest).map fun result =>
        (result.1, trace.applied ++ result.2)

structure WriteRun (wc : WriteConsistency) (h : ShardHash) (views : List View)
    (run : List (View × AttemptTrace)) : Prop where
  along : run.map Prod.fst = views
  follows : ∀ attempt ∈ run, attempt.2.Follows (attempt.1.writeRoute wc h)

theorem acks_eq_length_acked (trace : AttemptTrace) :
    (tally trace.reports).acks = trace.acked.length := by
  rw [tally_eq]
  simp only [AttemptTrace.reports, AttemptTrace.acked, length_map, List.count,
    ← countP_eq_length_filter, countP_map]
  rfl

variable {trace : AttemptTrace}

theorem nodup_acked (once : (trace.arrived.map Prod.fst).Nodup) : trace.acked.Nodup :=
  (filter_sublist.map Prod.fst).nodup once

theorem AttemptTrace.Follows.acked_lt {route : WriteRoute} (follows : trace.Follows route) :
    ∀ i ∈ trace.acked, i < route.auth.length := by
  intro i mem
  exact follows.inRange i ((filter_sublist.map Prod.fst).subset mem)

theorem AttemptTrace.Follows.bar_le_card {route : WriteRoute} (follows : trace.Follows route)
    (met : route.bar ≤ (tally trace.reports).acks)
    (sound : route.bar ≤ 1 ∨ (route.auth.map RoutedReplica.ru).Nodup) :
    route.bar ≤ trace.applied.toFinset.card := by
  rw [acks_eq_length_acked] at met
  have inRange : ∀ i ∈ trace.acked, i < (route.auth.map RoutedReplica.ru).length := by
    simpa using follows.acked_lt
  have stored : (entriesAt (route.auth.map RoutedReplica.ru) trace.acked).toFinset ⊆
      trace.applied.toFinset := by
    intro ru mem
    exact mem_toFinset.mpr (follows.durable ru (mem_toFinset.mp mem))
  refine le_trans ?_ (Finset.card_le_card stored)
  rcases sound with one | distinct
  · by_cases none : route.bar = 0
    · omega
    · have some_ack : 0 < (entriesAt (route.auth.map RoutedReplica.ru) trace.acked).length := by
        rw [length_entriesAt inRange]
        omega
      obtain ⟨ru, mem⟩ := exists_mem_of_length_pos some_ack
      exact one.trans (Finset.card_pos.mpr ⟨ru, mem_toFinset.mpr mem⟩)
  · rw [toFinset_card_of_nodup (nodup_entriesAt distinct (nodup_acked follows.once)),
      length_entriesAt inRange]
    exact met

namespace View

theorem addLegs_eq (out more : List RoutedReplica) :
    addLegs out more = OrderedUnion.appendNew out more := rfl

variable {more out : List RoutedReplica}

theorem mem_addLegs {leg : RoutedReplica} : leg ∈ addLegs out more ↔ leg ∈ out ∨ leg ∈ more := by
  rw [addLegs_eq, OrderedUnion.mem_appendNew]

theorem sublist_addLegs (out more : List RoutedReplica) : out.Sublist (addLegs out more) := by
  exact (OrderedUnion.prefix_appendNew out more).sublist

theorem nodup_addLegs (distinct : out.Nodup) : (addLegs out more).Nodup := by
  exact OrderedUnion.nodup_appendNew distinct

theorem nodup_map_addLegs :
    ((addLegs out more).map RoutedReplica.ru).Nodup ↔
      (out.map RoutedReplica.ru).Nodup ∧ ∀ a ∈ out ++ more, ∀ b ∈ out ++ more,
        a.ru = b.ru → a.member = b.member := by
  constructor
  · intro distinct
    refine ⟨((sublist_addLegs out more).map _).nodup distinct, ?_⟩
    intro a left b right same
    have inA := mem_addLegs.mpr (mem_append.mp left)
    have inB := mem_addLegs.mpr (mem_append.mp right)
    exact congrArg RoutedReplica.member (inj_on_of_nodup_map distinct inA inB same)
  · rintro ⟨distinct, agree⟩
    refine List.Nodup.map_on ?_ (nodup_addLegs distinct.of_map)
    intro a left b right same
    have member := agree a (mem_append.mpr (mem_addLegs.mp left)) b
      (mem_append.mpr (mem_addLegs.mp right)) same
    cases a
    cases b
    simp_all

variable (v : View)

def PositionsAgree (gu : GenUnit) : Prop :=
  ∀ a ∈ legsAt gu (v.currentMembers gu) ++ legsAt gu (v.pendingMembers gu),
    ∀ b ∈ legsAt gu (v.currentMembers gu) ++ legsAt gu (v.pendingMembers gu),
      a.ru = b.ru → a.member = b.member

def OnePerPosition (h : ShardHash) : Prop :=
  match v.routedReplicasForReshard h with
  | some legs => legs.auth.length ≤ 256
  | none =>
    (v.currentMembers (v.gs.resolveGenUnit h)).length ≤ 256 ∧
      (v.inTransition (v.gs.resolveGenUnit h) = true →
        v.PositionsAgree (v.gs.resolveGenUnit h))

theorem routedReplicasForReshard_auth {h : ShardHash} {legs : ReshardLegs}
    (routed : v.routedReplicasForReshard h = some legs) :
    ∃ gu members, legs.auth = legsAt gu members ∧ members ≠ [] := by
  unfold routedReplicasForReshard at routed
  cases entered : v.gs.nextCount with
  | none => simp [entered] at routed
  | some next =>
    simp only [entered, v.unitReplicas_ne_nil, ↓reduceIte] at routed
    split at routed
    · cases routed
      split <;> exact ⟨_, _, rfl, v.unitReplicas_ne_nil _⟩
    · cases routed
      exact ⟨_, _, rfl, v.unitReplicas_ne_nil _⟩

theorem currentMembers_ne_nil (gu : GenUnit) : v.currentMembers gu ≠ [] := by
  have positive := v.stableR_pos gu
  rw [stableR_eq] at positive
  exact length_pos_iff.mp positive

theorem nodup_auth_iff (wc : WriteConsistency) (h : ShardHash) :
    ((v.writeRoute wc h).auth.map RoutedReplica.ru).Nodup ↔ v.OnePerPosition h := by
  unfold writeRoute OnePerPosition
  cases reshard : v.routedReplicasForReshard h with
  | some legs =>
    obtain ⟨gu, members, auth, -⟩ := v.routedReplicasForReshard_auth reshard
    simp only [auth, nodup_legsAt, length_legsAt]
  | none =>
    simp only [routedReplicasWithUnit]
    by_cases moving : v.inTransition (v.gs.resolveGenUnit h) = true
    · simp [moving, nodup_map_addLegs, nodup_legsAt, PositionsAgree]
    · simp [moving, nodup_legsAt]

theorem writeRoute_auth_ne_nil (wc : WriteConsistency) (h : ShardHash) :
    (v.writeRoute wc h).auth ≠ [] := by
  unfold writeRoute
  split
  case h_1 legs reshard =>
    obtain ⟨gu, members, auth, nonempty⟩ := v.routedReplicasForReshard_auth reshard
    simpa [auth, legsAt, mapIdx_eq_nil_iff] using nonempty
  case h_2 =>
    have current :
        legsAt (v.gs.resolveGenUnit h) (v.currentMembers (v.gs.resolveGenUnit h)) ≠ [] := by
      simpa [legsAt, mapIdx_eq_nil_iff] using v.currentMembers_ne_nil (v.gs.resolveGenUnit h)
    unfold routedReplicasWithUnit
    split
    · intro empty
      have inside := sublist_addLegs
        (legsAt (v.gs.resolveGenUnit h) (v.currentMembers (v.gs.resolveGenUnit h)))
        (legsAt (v.gs.resolveGenUnit h) (v.pendingMembers (v.gs.resolveGenUnit h)))
      simp only at empty
      rw [empty] at inside
      exact current (sublist_nil.mp inside)
    · exact current

end View

section Runs

variable {wc : WriteConsistency} {h : ShardHash}

def silentTrace (route : WriteRoute) : AttemptTrace where
  arrived := (List.range route.auth.length).map fun i => (i, .transient)
  expired := false
  applied := []

theorem silentTrace_acked (route : WriteRoute) : (silentTrace route).acked = [] := by
  simp [silentTrace, AttemptTrace.acked, filter_map, comp_def]

theorem silentTrace_follows (route : WriteRoute) : (silentTrace route).Follows route where
  once := by simpa [silentTrace, comp_def] using nodup_range
  inRange := by simp [silentTrace]
  returned := .inr (by simp [decided, silentTrace, AttemptTrace.reports])
  durable := by simp [silentTrace_acked, entriesAt]

theorem putReplicatedUnitAttempt_silentTrace (v : View) :
    putReplicatedUnitAttempt (v.writeRoute wc h) (silentTrace (v.writeRoute wc h)) =
      .retryable := by
  have none_acked := acks_eq_length_acked (silentTrace (v.writeRoute wc h))
  rw [silentTrace_acked, length_nil] at none_acked
  have no_errs : (tally (silentTrace (v.writeRoute wc h)).reports).errs = 0 := by
    rw [tally_eq]
    simp [silentTrace, AttemptTrace.reports, count_eq_zero]
  have bar := v.writeRoute_bar_pos wc h
  simp only [putReplicatedUnitAttempt, v.writeRoute_auth_ne_nil, ↓reduceIte,
    classifyWriteAttempt, none_acked, no_errs]
  rw [if_neg (by omega)]

theorem putReplicatedUnit_silent_append (views : List View) (run : List (View × AttemptTrace)) :
    putReplicatedUnit wc h (views.map (fun v => (v, silentTrace (v.writeRoute wc h))) ++ run) =
      putReplicatedUnit wc h run := by
  induction views with
  | nil => rfl
  | cons v rest ih =>
    simp only [map_cons, cons_append, putReplicatedUnit,
      putReplicatedUnitAttempt_silentTrace, ih]
    simp [silentTrace]

theorem exists_acked_attempt {run : List (View × AttemptTrace)} {bar : Nat}
    {applied : List ReplicaUnit} (returned : putReplicatedUnit wc h run = some (bar, applied)) :
    ∃ attempt ∈ run, bar = (attempt.1.writeRoute wc h).bar ∧
      bar ≤ (tally attempt.2.reports).acks ∧ attempt.2.applied ⊆ applied := by
  induction run generalizing bar applied with
  | nil => cases returned
  | cons attempt rest ih =>
    obtain ⟨v, trace⟩ := attempt
    simp only [putReplicatedUnit] at returned
    split at returned
    case h_1 verdict =>
      cases returned
      refine ⟨(v, trace), by simp, rfl, ?_, List.Subset.refl _⟩
      simp only [putReplicatedUnitAttempt, v.writeRoute_auth_ne_nil, ↓reduceIte,
        classifyWriteAttempt] at verdict
      split at verdict
      · assumption
      · split at verdict <;> cases verdict
    case h_2 => cases returned
    case h_3 =>
      split at returned
      · cases returned
      · obtain ⟨result, later, same⟩ := Option.map_eq_some_iff.mp returned
        cases same
        obtain ⟨attempt, mem, bar, met, inside⟩ := ih later
        exact ⟨attempt, by simp [mem], bar, met,
          fun ru there => mem_append_right _ (inside there)⟩

def ackTrace (route : WriteRoute) (indices : List Nat) : AttemptTrace where
  arrived := indices.map fun i => (i, .ack)
  expired := false
  applied := entriesAt (route.auth.map RoutedReplica.ru) indices

theorem ackTrace_acked (route : WriteRoute) (indices : List Nat) :
    (ackTrace route indices).acked = indices := by
  simp [ackTrace, AttemptTrace.acked, filter_map, comp_def]

section AckTrace

variable {route : WriteRoute} {indices : List Nat}

theorem ackTrace_follows (different : indices.Nodup)
    (inRange : ∀ i ∈ indices, i < route.auth.length) (positive : 0 < route.bar)
    (enough : route.bar ≤ indices.length) : (ackTrace route indices).Follows route where
  once := by simpa [ackTrace, comp_def] using different
  inRange := by simpa [ackTrace, comp_def] using inRange
  returned := by
    right
    have fits := length_le_of_nodup different inRange
    have clamped : clampAcks route.bar route.auth.length = route.bar := by
      unfold clampAcks
      omega
    have acks := acks_eq_length_acked (ackTrace route indices)
    rw [ackTrace_acked] at acks
    simp [decided, clamped, acks, enough]
  durable := by
    rw [ackTrace_acked]
    exact fun ru member => member

theorem putReplicatedUnitAttempt_ackTrace (nonempty : route.auth ≠ [])
    (enough : route.bar ≤ indices.length) :
    putReplicatedUnitAttempt route (ackTrace route indices) = .acked := by
  have acks := acks_eq_length_acked (ackTrace route indices)
  rw [ackTrace_acked] at acks
  simp [putReplicatedUnitAttempt, nonempty, classifyWriteAttempt, acks, enough]

end AckTrace

theorem exists_undercounted_attempt {route : WriteRoute} (two_le : 2 ≤ route.bar)
    (le_length : route.bar ≤ route.auth.length)
    (repeats : ¬ (route.auth.map RoutedReplica.ru).Nodup) :
    ∃ trace : AttemptTrace, trace.Follows route ∧ putReplicatedUnitAttempt route trace = .acked ∧
      trace.applied.toFinset.card < route.bar := by
  obtain ⟨indices, different, count, inRange, fewer⟩ :=
    exists_entriesAt_card_lt repeats two_le (by simpa using le_length)
  have nonempty : route.auth ≠ [] := by
    intro empty
    rw [empty, length_nil] at le_length
    omega
  refine ⟨ackTrace route indices, ?_, ?_, fewer⟩
  · exact ackTrace_follows different (by simpa using inRange) (by omega) count.ge
  · exact putReplicatedUnitAttempt_ackTrace nonempty count.ge

/-- **The copies of an acked write.** Along the given views, every run that returns without
an error leaves as many distinct copies as its ack bar asked for, if and only if each view
asks for one ack only, or has fewer gating legs than the bar, or places every position at
one member. -/
theorem acked_copies_iff (wc : WriteConsistency) (h : ShardHash) (views : List View) :
    (∀ run bar applied, WriteRun wc h views run →
      putReplicatedUnit wc h run = some (bar, applied) → bar ≤ applied.toFinset.card) ↔
    ∀ v ∈ views, (v.writeRoute wc h).bar ≤ 1 ∨
      (v.writeRoute wc h).auth.length < (v.writeRoute wc h).bar ∨ v.OnePerPosition h := by
  constructor
  · intro sound v member
    by_contra! bad
    obtain ⟨many, enough, twice⟩ := bad
    rw [← v.nodup_auth_iff wc h] at twice
    obtain ⟨trace, follows, acked, fewer⟩ := exists_undercounted_attempt many enough twice
    obtain ⟨before, after, rfl⟩ := append_of_mem member
    let silent : View → View × AttemptTrace := fun v => (v, silentTrace (v.writeRoute wc h))
    let run := before.map silent ++ (v, trace) :: after.map silent
    have runs : WriteRun wc h (before ++ v :: after) run := by
      refine ⟨by simp [run, silent, comp_def], ?_⟩
      intro attempt inside
      simp only [run, silent, mem_append, mem_map, mem_cons] at inside
      rcases inside with ⟨w, -, rfl⟩ | rfl | ⟨w, -, rfl⟩
      · exact silentTrace_follows _
      · exact follows
      · exact silentTrace_follows _
    have returned : putReplicatedUnit wc h run =
        some ((v.writeRoute wc h).bar, trace.applied) := by
      simp only [run, silent, putReplicatedUnit_silent_append, putReplicatedUnit, acked]
    have copies := sound run _ _ runs returned
    omega
  · intro sound run bar applied runs returned
    obtain ⟨attempt, member, rfl, met, inside⟩ := exists_acked_attempt returned
    have follows := runs.follows attempt member
    have view : attempt.1 ∈ views := by
      rw [← runs.along]
      exact mem_map_of_mem member
    have copied : (attempt.1.writeRoute wc h).bar ≤ attempt.2.applied.toFinset.card := by
      apply follows.bar_le_card met
      rcases sound attempt.1 view with one | short | distinct
      · exact .inl one
      · have acks := length_le_of_nodup (nodup_acked follows.once) follows.acked_lt
        rw [← acks_eq_length_acked] at acks
        omega
      · exact .inr ((attempt.1.nodup_auth_iff wc h).mpr distinct)
    refine copied.trans (Finset.card_le_card fun ru there => ?_)
    exact mem_toFinset.mpr (inside (mem_toFinset.mp there))

/-- Two replicas of which node 2 is about to take the first position over: current
placement `[0, 1]`, pending placement `[2, 0]`. -/
def joiningView : View where
  self := 0
  r := 2
  gs := .steady 0 .one
  joining := [2]
  draining := []
  locate := fun _ excluded => if excluded = [2] then [0, 1] else [2, 0]

/-- A quorum write acked by the old and the new member of one position has one copy. -/
theorem quorum_write_with_one_copy :
    ∃ run bar applied, WriteRun .quorum 0 [joiningView] run ∧
      putReplicatedUnit .quorum 0 run = some (bar, applied) ∧ bar = 2 ∧
      applied.toFinset.card = 1 := by
  refine ⟨[(joiningView, ⟨[(0, .ack), (2, .ack)], false, [⟨⟨0, 0⟩, 0⟩]⟩)], 2, [⟨⟨0, 0⟩, 0⟩],
    ⟨rfl, ?_⟩, by decide, rfl, rfl⟩
  intro attempt member
  obtain rfl := mem_singleton.mp member
  exact ⟨by decide, by decide, .inr (by decide), by decide⟩

end Runs

end Shale
