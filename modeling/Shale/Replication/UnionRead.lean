import Shale.Blob.Unstage
import Shale.Replication.PendingRoute
import Shale.Replication.ReadSweep

/-!
# The positions behind a read of the routed union

A read counts its legs by member and position, but a member serves a leg from any position of the
unit it has mounted, and a repair goes by the member of a lagging answer alone. While a unit is
between two placements a member may be routed at two positions.
-/

namespace Shale.UnionRead

open Blob ReadSweep List

def servedFrom (mounts : Nat → List ReplicaUnit) (leg : RoutedReplica) : Option ReplicaUnit :=
  backendForOrLowest (mounts leg.member) leg.ru

/-- One sweep over the routed legs, in any order. A leg that finds no mounted position is refused
as acquiring. -/
structure Swept (mounts : Nat → List ReplicaUnit) (routed : List RoutedReplica)
    (legs : List (RoutedReplica × LegAnswer)) : Prop where
  all : (legs.map Prod.fst).Perm routed
  served : ∀ leg ∈ legs, leg.2.answered = true → (servedFrom mounts leg.1).isSome = true

def lacking (mounts : Nat → List ReplicaUnit) (legs : List (RoutedReplica × LegAnswer)) :
    List ReplicaUnit :=
  (legs.filter fun leg => leg.2 = .notFound).filterMap fun leg => servedFrom mounts leg.1

/-- Legs that are served come from different positions, or are too few to be `n` or to be two. -/
def Apart (mounts : Nat → List ReplicaUnit) (routed : List RoutedReplica) (n : Nat) : Prop :=
  n ≤ 1 ∨ (routed.filterMap (servedFrom mounts)).length < n ∨
    (routed.filterMap (servedFrom mounts)).Nodup

section Sweeps

variable {mounts : Nat → List ReplicaUnit} {routed : List RoutedReplica}
  {legs : List (RoutedReplica × LegAnswer)} {n : Nat}

section

variable (sweep : Swept mounts routed legs)
include sweep

theorem Swept.length_lacking (silent : ∀ env, .value env ∉ legs.map Prod.snd) :
    (lacking mounts legs).length = (legs.map Prod.snd).countP LegAnswer.answered := by
  have missing : ∀ leg ∈ legs, leg.2 = .notFound ↔ leg.2.answered = true := by
    intro leg among
    cases answer : leg.2 with
    | value env => exact absurd (answer ▸ mem_map_of_mem among) (silent env)
    | notFound | undecodable | transient | unreachable | failed => simp [LegAnswer.answered]
  have served : ∀ leg ∈ legs.filter fun leg => leg.2 = .notFound,
      (servedFrom mounts leg.1).isSome = true := by
    intro leg among
    obtain ⟨asked, absent⟩ := mem_filter.mp among
    exact sweep.served leg asked ((missing leg asked).mp (of_decide_eq_true absent))
  rw [lacking, length_filterMap_eq_countP, countP_eq_length.mpr served,
    ← countP_eq_length_filter, countP_map]
  exact countP_congr fun leg among => by simpa using missing leg among

theorem Swept.lacking_subperm :
    (lacking mounts legs).Subperm (routed.filterMap (servedFrom mounts)) := by
  have read : (legs.filterMap fun leg => servedFrom mounts leg.1).Perm
      (routed.filterMap (servedFrom mounts)) := by
    have mapped := sweep.all.filterMap (servedFrom mounts)
    rwa [filterMap_map] at mapped
  exact (filter_sublist.filterMap _).subperm.trans read.subperm

theorem Swept.witnessed (apart : Apart mounts routed n) (enough : n ≤ (lacking mounts legs).length)
    : n ≤ (lacking mounts legs).toFinset.card := by
  have among := sweep.lacking_subperm
  rcases apart with single | few | distinct
  · cases read : lacking mounts legs with
    | nil =>
      rw [read] at enough
      exact enough
    | cons ru rest =>
      have mem : ru ∈ (ru :: rest).toFinset := by simp
      have := Finset.card_pos.mpr ⟨ru, mem⟩
      omega
  · have := among.length_le
    omega
  · obtain ⟨same, reordered, inside⟩ := among
    rw [toFinset_card_of_nodup (reordered.nodup_iff.mp (inside.nodup distinct))]
    exact enough

end

theorem exists_pair_of_not_nodup {α β : Type} {f : α → Option β} {l : List α}
    (repeated : ¬ (l.filterMap f).Nodup) :
    ∃ a b y rest, l.Perm (a :: b :: rest) ∧ f a = some y ∧ f b = some y := by
  induction l with
  | nil => exact absurd nodup_nil repeated
  | cons x xs ih =>
    have deeper : ¬ (xs.filterMap f).Nodup → ∃ a b y rest, (x :: xs).Perm (a :: b :: rest) ∧
        f a = some y ∧ f b = some y := by
      intro later
      obtain ⟨a, b, y, rest, reordered, left, right⟩ := ih later
      refine ⟨a, b, y, x :: rest, (reordered.cons x).trans ?_, left, right⟩
      exact (List.Perm.swap a x _).trans ((List.Perm.swap b x rest).cons a)
    cases image : f x with
    | none => exact deeper (by rwa [filterMap_cons_none image] at repeated)
    | some y =>
      rw [filterMap_cons_some image, nodup_cons, not_and_or, not_not] at repeated
      rcases repeated with again | later
      · obtain ⟨b, among, same⟩ := mem_filterMap.mp again
        classical
        exact ⟨x, b, y, xs.erase b, (perm_cons_erase among).cons x, image, same⟩
      · exact deeper later

theorem exists_swept_of_not_apart (together : ¬ Apart mounts routed n) :
    ∃ legs, Swept mounts routed legs ∧ (∀ env, .value env ∉ legs.map Prod.snd) ∧
      (legs.map Prod.snd).countP LegAnswer.answered = n ∧
      (lacking mounts legs).toFinset.card < n := by
  obtain ⟨several, many, repeated⟩ : 1 < n ∧
      n ≤ (routed.filterMap (servedFrom mounts)).length ∧
      ¬ (routed.filterMap (servedFrom mounts)).Nodup := by
    simpa [Apart, not_or] using together
  obtain ⟨a, b, ru, rest, reordered, first, second⟩ := exists_pair_of_not_nodup repeated
  -- the pair answers, and of the other legs that are served as many as it takes
  obtain ⟨more, silent, length, found, rebuilt⟩ : ∃ more silent : List RoutedReplica,
      more.length = n - 2 ∧ (∀ leg ∈ more, (servedFrom mounts leg).isSome = true) ∧
        (more ++ silent).Perm rest := by
    have total := (reordered.filterMap (servedFrom mounts)).length_eq
    rw [filterMap_cons_some first, filterMap_cons_some second, length_cons,
      length_cons] at total
    have counted : (rest.filterMap (servedFrom mounts)).length =
        (rest.filter fun leg => (servedFrom mounts leg).isSome).length := by
      rw [length_filterMap_eq_countP, countP_eq_length_filter]
    refine ⟨(rest.filter fun leg => (servedFrom mounts leg).isSome).take (n - 2),
      (rest.filter fun leg => (servedFrom mounts leg).isSome).drop (n - 2) ++
        rest.filter fun leg => !(servedFrom mounts leg).isSome, ?_,
      fun leg among => (mem_filter.mp (mem_of_mem_take among)).2, ?_⟩
    · rw [length_take]
      omega
    · rw [← append_assoc, take_append_drop]
      exact filter_append_perm _ rest
  refine ⟨(a :: b :: more).map (·, .notFound) ++ silent.map (·, .unreachable), ⟨?_, ?_⟩, ?_, ?_, ?_⟩
  · simpa [Function.comp_def] using ((rebuilt.cons b).cons a).trans reordered.symm
  · have served : ∀ leg ∈ a :: b :: more, (servedFrom mounts leg).isSome = true := by
      simpa [first, second] using found
    intro leg among answered
    rcases mem_append.mp among with front | back
    · obtain ⟨at', inside, rfl⟩ := mem_map.mp front
      exact served at' inside
    · obtain ⟨at', -, rfl⟩ := mem_map.mp back
      cases answered
  · simp
  · rw [map_append, map_map, map_map, countP_append, countP_map,
      countP_map]
    change (a :: b :: more).countP (fun _ => true) + silent.countP (fun _ => false) = n
    rw [countP_true, countP_false, length_cons, length_cons]
    simp only [Function.const_apply]
    omega
  · have read : lacking mounts ((a :: b :: more).map (·, .notFound) ++
        silent.map (·, .unreachable)) = ru :: ru :: more.filterMap (servedFrom mounts) := by
      simp [lacking, filter_append, filter_map, Function.comp_def, filterMap_map,
        first, second]
    have bounded := length_filterMap_le (servedFrom mounts) more
    have card := toFinset_card_le (ru :: more.filterMap (servedFrom mounts))
    rw [read, toFinset_cons, toFinset_cons, Finset.insert_idem, ← toFinset_cons]
    rw [length_cons] at card
    omega

end Sweeps

theorem required_le_routed (v : View) (gu : GenUnit) (rc : ReadConsistency) :
    requiredReadReplicas (guardConsistency rc) (v.routedReplicasWithUnit gu).2 ≤
      (v.routedReplicasWithUnit gu).1.length := by
  have stable : 0 < (v.routedReplicasWithUnit gu).2 ∧
      (v.routedReplicasWithUnit gu).2 ≤ (v.routedReplicasWithUnit gu).1.length := by
    have positive := v.stableR_pos gu
    have current := v.stableR_eq gu
    have legs : (legsAt gu (v.currentMembers gu)).length = (v.currentMembers gu).length := by
      simp [legsAt]
    unfold View.routedReplicasWithUnit
    split
    · have longer := (View.sublist_addLegs (legsAt gu (v.currentMembers gu))
        (legsAt gu (v.pendingMembers gu))).length_le
      exact ⟨positive, by dsimp only; omega⟩
    · exact ⟨positive, by dsimp only; omega⟩
  unfold guardConsistency
  split <;> simp only [requiredReadReplicas] <;> omega

/-- **Guarded absence is witnessed by distinct databases.** An absence that `guardGet` returns was
read from as many positions as the consistency asks, exactly when the legs are served from
different positions, or fewer than that are served, or one is enough. -/
theorem guarded_absence_iff (v : View) (gu : GenUnit) (mounts : Nat → List ReplicaUnit)
    (rc : ReadConsistency) :
    (∀ (notReady : Bool) (sweeps : List (List (RoutedReplica × LegAnswer))),
      (∀ legs ∈ sweeps, Swept mounts (v.routedReplicasWithUnit gu).1 legs ∧
        ∀ env, .value env ∉ legs.map Prod.snd) →
      guardGet notReady rc (v.routedReplicasWithUnit gu).2
        (sweeps.map fun legs => legs.map Prod.snd) = .error .notFound →
      ∃ legs ∈ sweeps, requiredReadReplicas (guardConsistency rc) (v.routedReplicasWithUnit gu).2 ≤
          (lacking mounts legs).toFinset.card) ↔
    Apart mounts (v.routedReplicasWithUnit gu).1
      (requiredReadReplicas (guardConsistency rc) (v.routedReplicasWithUnit gu).2) := by
  have clamp := required_le_routed v gu rc
  constructor
  · intro witnessed
    by_contra together
    obtain ⟨legs, sweep, silent, answered, fewer⟩ := exists_swept_of_not_apart together
    have length : (legs.map Prod.snd).length = (v.routedReplicasWithUnit gu).1.length := by
      rw [← sweep.all.length_eq, length_map, length_map]
    have asked : legs.map Prod.snd ≠ [] := by
      intro empty
      rw [empty, countP_nil] at answered
      omega
    have decides : getReplicatedUnitOnce ⟨guardConsistency rc, true⟩
        (v.routedReplicasWithUnit gu).2 (legs.map Prod.snd) = .ok Envelope.zero := by
      rw [getReplicatedUnitOnce_of_no_value silent asked, answered, length,
        Nat.min_eq_left clamp, Nat.min_self, if_neg (by omega), if_neg (by omega)]
    have absent : guardGet false rc (v.routedReplicasWithUnit gu).2
        ([legs].map fun legs => legs.map Prod.snd) = .error .notFound := by
      rw [map_singleton, guardGet, if_neg Bool.false_ne_true, getReplicatedUnit, decides]
      rfl
    obtain ⟨legs', only, enough⟩ := witnessed false [legs]
      (fun legs' only => mem_singleton.mp only ▸ ⟨sweep, silent⟩) absent
    obtain rfl := mem_singleton.mp only
    omega
  · intro apart notReady sweeps swept absent
    obtain ⟨answers, member, decided, -, decides⟩ := sweep_of_guardGet absent
    obtain ⟨legs, among, rfl⟩ := mem_map.mp member
    obtain ⟨sweep, silent⟩ := swept legs among
    refine ⟨legs, among, sweep.witnessed apart ?_⟩
    rw [sweep.length_lacking silent]
    rcases witnessed_of_getReplicatedUnitOnce rfl decides with heard | counted
    · exact absurd heard (silent decided)
    · rwa [length_map, ← length_map Prod.fst, sweep.all.length_eq,
        Nat.min_eq_left clamp] at counted

/-- Node 2 is routed at position 1 of a unit and, while node 3 drains, at position 0 as well.
Only its two legs answer. -/
def displacedLegs : List (RoutedReplica × LegAnswer) :=
  [(⟨3, ⟨⟨0, 0⟩, 0⟩⟩, .unreachable), (⟨2, ⟨⟨0, 0⟩, 1⟩⟩, .notFound),
    (⟨2, ⟨⟨0, 0⟩, 0⟩⟩, .notFound), (⟨1, ⟨⟨0, 0⟩, 1⟩⟩, .unreachable)]

def mountedAtTwo (positions : List ReplicaUnit) (member : Nat) : List ReplicaUnit :=
  if member = 2 then positions else []

theorem guarded_absence_both_mounted :
    2 ≤ (lacking (mountedAtTwo [⟨⟨0, 0⟩, 0⟩, ⟨⟨0, 0⟩, 1⟩]) displacedLegs).toFinset.card := by
  have apart : Apart (mountedAtTwo [⟨⟨0, 0⟩, 0⟩, ⟨⟨0, 0⟩, 1⟩])
      ((View.drainingView 2 [3, 2] [2, 1]).routedReplicasWithUnit ⟨0, 0⟩).1 2 :=
    .inr (.inr (by decide))
  obtain ⟨legs, only, enough⟩ := (guarded_absence_iff (View.drainingView 2 [3, 2] [2, 1]) ⟨0, 0⟩
    (mountedAtTwo [⟨⟨0, 0⟩, 0⟩, ⟨⟨0, 0⟩, 1⟩]) .quorum).mpr apart false [displacedLegs]
    (fun legs only => mem_singleton.mp only ▸
      ⟨⟨by decide, by decide⟩, by simp [displacedLegs]⟩) (by decide)
  exact mem_singleton.mp only ▸ enough

/-- With position 1 alone mounted both legs of node 2 are served from it, and one database that
lacks the key passes for the two that a quorum of two copies asks for. -/
theorem guarded_absence_from_one_copy :
    Swept (mountedAtTwo [⟨⟨0, 0⟩, 1⟩])
        ((View.drainingView 2 [3, 2] [2, 1]).routedReplicasWithUnit ⟨0, 0⟩).1 displacedLegs ∧
      guardGet false .quorum ((View.drainingView 2 [3, 2] [2, 1]).routedReplicasWithUnit ⟨0, 0⟩).2
        [displacedLegs.map Prod.snd] = .error .notFound ∧
      requiredReadReplicas (guardConsistency .quorum)
        ((View.drainingView 2 [3, 2] [2, 1]).routedReplicasWithUnit ⟨0, 0⟩).2 = 2 ∧
      lacking (mountedAtTwo [⟨⟨0, 0⟩, 1⟩]) displacedLegs = [⟨⟨0, 0⟩, 1⟩, ⟨⟨0, 0⟩, 1⟩] :=
  ⟨⟨by decide, by decide⟩, by decide, by decide, by decide⟩

section Repair

variable (decode : Bytes → Except String Envelope) (rc : ReadConsistency) (n : Nat)

def report (leg : RoutedReplica × Except LegError Bytes) : LegResult :=
  ⟨leg.1.member, leg.2⟩

/-- What the gather loop keeps of a result. -/
def heard (answer : LegAnswer) : Option (Option Envelope) :=
  match answer with
  | .value env => some (some env)
  | .notFound => some none
  | .undecodable | .transient | .unreachable | .failed => none

def gatherLegs : Nat → List (RoutedReplica × Except LegError Bytes) →
    List (RoutedReplica × Option Envelope)
  | _, [] => []
  | usable, leg :: rest =>
    match heard (classify decode (report leg)) with
    | none => gatherLegs usable rest
    | some env =>
      if usable < n then (leg.1, env) :: gatherLegs (usable + 1) rest
      else if env.isSome ∧ rc ≠ .nearest then (leg.1, env) :: gatherLegs usable rest
      else gatherLegs usable rest

def collect (leg : RoutedReplica × Option Envelope) : Collected := ⟨leg.1.member, leg.2⟩

theorem add_report (s : Sweep) (leg : RoutedReplica × Except LegError Bytes) :
    ((s.add decode rc n (report leg)).gathered, (s.add decode rc n (report leg)).usable) =
      match heard (classify decode (report leg)) with
      | none => (s.gathered, s.usable)
      | some env =>
        if s.usable < n then (s.gathered ++ [collect (leg.1, env)], s.usable + 1)
        else if env.isSome ∧ rc ≠ .nearest then (s.gathered ++ [collect (leg.1, env)], s.usable)
        else (s.gathered, s.usable) := by
  obtain ⟨rr, result⟩ := leg
  cases result with
  | error err =>
    simp only [Sweep.add, report, classify]
    split_ifs <;> simp_all [heard, collect]
  | ok bytes =>
    simp only [Sweep.add, report, classify]
    cases decode bytes with
    | error message => rfl
    | ok env =>
      dsimp only [heard]
      split_ifs <;> simp_all [collect]

theorem foldl_report (legs : List (RoutedReplica × Except LegError Bytes)) (s : Sweep) :
    ((legs.map report).foldl (Sweep.add decode rc n) s).gathered =
      s.gathered ++ (gatherLegs decode rc n s.usable legs).map collect := by
  induction legs generalizing s with
  | nil => simp [gatherLegs]
  | cons leg rest ih =>
    have turn := add_report decode rc n s leg
    rw [map_cons, foldl_cons, ih, gatherLegs]
    generalize s.add decode rc n (report leg) = next at turn ⊢
    cases kept : heard (classify decode (report leg)) with
    | none =>
      rw [kept] at turn
      obtain ⟨gathered, usable⟩ := Prod.mk.inj turn
      rw [gathered, usable]
    | some env =>
      rw [kept] at turn
      dsimp only at turn ⊢
      split_ifs at turn ⊢
      all_goals
        obtain ⟨gathered, usable⟩ := Prod.mk.inj turn
        simp [gathered, usable]

end Repair

def winnerOf : List Collected → Option Envelope
  | [] => none
  | first :: rest => (rest.foldl better first).env

def lagging (winner : Envelope) (leg : RoutedReplica × Option Envelope) : Bool :=
  leg.2.all fun env => winner.stamp.greater env.stamp

def LastOf (routed : List RoutedReplica) (leg : RoutedReplica) : Prop :=
  ∃ before after, routed = before ++ leg :: after ∧ ∀ other ∈ after, other.member ≠ leg.member

section Repairs

variable {decode : Bytes → Except String Envelope} {opts : ReadOpts} {stableR : Nat}
  {routed : List RoutedReplica} {legs : List (RoutedReplica × Except LegError Bytes)}
  {winner : Envelope}

def gatheredLegs (decode : Bytes → Except String Envelope) (opts : ReadOpts) (stableR : Nat)
    (legs : List (RoutedReplica × Except LegError Bytes)) :
    List (RoutedReplica × Option Envelope) :=
  gatherLegs decode opts.rc (min (requiredReadReplicas opts.rc stableR) legs.length) 0 legs

theorem ruByMember_eq_some_iff {leg : RoutedReplica} :
    (RepairSite.mk true routed).ruByMember leg.member = some leg.ru ↔ LastOf routed leg := by
  unfold RepairSite.ruByMember
  simp only [Option.map_eq_some_iff, List.find?_eq_some_iff_append, decide_eq_true_eq]
  constructor
  · rintro ⟨rr, ⟨same, after, before, listed, others⟩, position⟩
    obtain rfl : rr = leg := by
      cases rr
      cases leg
      simp_all
    refine ⟨before.reverse, after.reverse, ?_, by simpa using others⟩
    simpa using congrArg List.reverse listed
  · rintro ⟨before, after, rfl, others⟩
    exact ⟨leg, ⟨rfl, after.reverse, before.reverse, by simp, by simpa using others⟩, rfl⟩

theorem exists_ruByMember {leg : RoutedReplica} (among : leg ∈ routed) :
    ∃ ru, (RepairSite.mk true routed).ruByMember leg.member = some ru := by
  have found : (routed.reverse.find? fun rr => rr.member = leg.member).isSome = true := by
    rw [List.find?_isSome]
    exact ⟨leg, by simpa using among, by simp⟩
  obtain ⟨rr, same⟩ := Option.isSome_iff_exists.mp found
  exact ⟨rr.ru, by rw [RepairSite.ruByMember, same]; rfl⟩

theorem mem_of_mem_gatherLegs {rc : ReadConsistency} {n usable : Nat}
    {leg : RoutedReplica × Option Envelope} (gathered : leg ∈ gatherLegs decode rc n usable legs) :
    leg.1 ∈ legs.map Prod.fst := by
  induction legs generalizing usable with
  | nil => cases gathered
  | cons head rest ih =>
    rw [map_cons, mem_cons]
    rw [gatherLegs] at gathered
    split at gathered
    · exact .inr (ih gathered)
    · split_ifs at gathered
      · rcases mem_cons.mp gathered with rfl | later
        · exact .inl rfl
        · exact .inr (ih later)
      · rcases mem_cons.mp gathered with rfl | later
        · exact .inl rfl
        · exact .inr (ih later)
      · exact .inr (ih gathered)

theorem repairs_eq (strict : opts.rc ≠ .nearest)
    (won : winnerOf ((gatheredLegs decode opts stableR legs).map collect) = some winner) :
    (getReplicatedUnitOnceOpts decode opts stableR ⟨true, routed⟩ (legs.map report)).repairs =
      ((gatheredLegs decode opts stableR legs).filter (lagging winner)).filterMap fun leg =>
        ((RepairSite.mk true routed).ruByMember leg.1.member).map fun ru =>
          ⟨leg.1.member, ru, winner⟩ := by
  have asked : legs.map report ≠ [] := by
    intro empty
    obtain rfl := map_eq_nil_iff.mp empty
    cases won
  have gathered : (ReadSweep.sweep decode opts.rc
      (min (requiredReadReplicas opts.rc stableR) (legs.map report).length)
      (legs.map report)).gathered = (gatheredLegs decode opts stableR legs).map collect := by
    rw [length_map, ReadSweep.sweep, foldl_report, nil_append]
    rfl
  unfold getReplicatedUnitOnceOpts
  rw [if_neg asked]
  dsimp only
  rw [gathered]
  cases kept : (gatheredLegs decode opts stableR legs).map collect with
  | nil =>
    rw [kept] at won
    cases won
  | cons first rest =>
    rw [kept] at won
    dsimp only [winnerOf] at won ⊢
    rw [won]
    dsimp only
    rw [if_pos strict, ← kept, scheduleReadRepairUnit, if_pos rfl, filter_map,
      filterMap_map]
    rfl

/-- **Read repair reaches the lagging legs.** The repairs of a read with a winner are one for each
gathered leg that lags, at its own position, and no other, exactly when each such leg is the last
of its member in the union. -/
theorem read_repair_iff (strict : opts.rc ≠ .nearest) (asked : ∀ leg ∈ legs, leg.1 ∈ routed)
    (won : winnerOf ((gatheredLegs decode opts stableR legs).map collect) = some winner) :
    (getReplicatedUnitOnceOpts decode opts stableR ⟨true, routed⟩ (legs.map report)).repairs =
        ((gatheredLegs decode opts stableR legs).filter (lagging winner)).map (fun leg =>
          ⟨leg.1.member, leg.1.ru, winner⟩) ↔
      ∀ leg ∈ gatheredLegs decode opts stableR legs, lagging winner leg = true →
        LastOf routed leg.1 := by
  have member : ∀ leg ∈ (gatheredLegs decode opts stableR legs).filter (lagging winner),
      ∃ ru, (RepairSite.mk true routed).ruByMember leg.1.member = some ru := by
    intro leg behind
    obtain ⟨source, among, same⟩ :=
      mem_map.mp (mem_of_mem_gatherLegs (mem_filter.mp behind).1)
    exact exists_ruByMember (same ▸ asked source among)
  rw [repairs_eq strict won]
  simp only [← ruByMember_eq_some_iff]
  generalize gatheredLegs decode opts stableR legs = gathered at member ⊢
  constructor
  · intro equal leg among behind
    have here : leg ∈ gathered.filter (lagging winner) := mem_filter.mpr ⟨among, behind⟩
    generalize gathered.filter (lagging winner) = laggers at equal member here
    induction laggers with
    | nil => cases here
    | cons head rest ih =>
      obtain ⟨ru, routedAt⟩ := member head (by simp)
      rw [filterMap_cons_some (by rw [routedAt]; rfl), map_cons] at equal
      obtain ⟨first, others⟩ := List.cons.inj equal
      rcases mem_cons.mp here with rfl | later
      · cases first
        exact routedAt
      · exact ih others (fun leg inside => member leg (by simp [inside])) later
  · intro last
    rw [← filterMap_eq_map]
    refine filterMap_congr fun leg behind => ?_
    obtain ⟨among, lags⟩ := mem_filter.mp behind
    rw [last leg among lags]
    rfl

end Repairs

/-- Node 2 has a value at one of its positions and none at the other; node 1 does not answer. -/
def halfLegs (held missing : UInt8) : List (RoutedReplica × Except LegError Bytes) :=
  [(⟨3, ⟨⟨0, 0⟩, 0⟩⟩, .ok [7, 8]), (⟨2, ⟨⟨0, 0⟩, missing⟩⟩, .error (.notFound "no such key")),
    (⟨2, ⟨⟨0, 0⟩, held⟩⟩, .ok [7, 8]), (⟨1, ⟨⟨0, 0⟩, 1⟩⟩, .error (.status .unavailable "down"))]

theorem read_repair_last_position :
    (getReplicatedUnitOnceOpts decodeByte ⟨.quorum, false⟩ 2
      ⟨true, ((View.drainingView 2 [3, 2] [2, 1]).routedReplicasWithUnit ⟨0, 0⟩).1⟩
      ((halfLegs 1 0).map report)).repairs = [⟨2, ⟨⟨0, 0⟩, 0⟩, ⟨⟨7, 0⟩, [8]⟩⟩] := by
  refine (@read_repair_iff decodeByte ⟨.quorum, false⟩ 2
    ((View.drainingView 2 [3, 2] [2, 1]).routedReplicasWithUnit ⟨0, 0⟩).1 (halfLegs 1 0)
    ⟨⟨7, 0⟩, [8]⟩ (by decide) (by decide) rfl).mpr fun leg gathered behind => ?_
  have listed : gatheredLegs decodeByte ⟨.quorum, false⟩ 2 (halfLegs 1 0) =
      [(⟨3, ⟨⟨0, 0⟩, 0⟩⟩, some ⟨⟨7, 0⟩, [8]⟩), (⟨2, ⟨⟨0, 0⟩, 0⟩⟩, none),
        (⟨2, ⟨⟨0, 0⟩, 1⟩⟩, some ⟨⟨7, 0⟩, [8]⟩)] := by decide
  simp only [listed, mem_cons, not_mem_nil, or_false] at gathered
  rcases gathered with rfl | rfl | rfl
  · cases behind
  · exact ⟨[⟨3, ⟨⟨0, 0⟩, 0⟩⟩, ⟨2, ⟨⟨0, 0⟩, 1⟩⟩], [⟨1, ⟨⟨0, 0⟩, 1⟩⟩], rfl, by decide⟩
  · cases behind

/-- Where position 1 lags, the repair goes to position 0, which holds the winner already. -/
theorem read_repair_misses_position :
    gatheredLegs decodeByte ⟨.quorum, false⟩ 2 (halfLegs 0 1) =
        [(⟨3, ⟨⟨0, 0⟩, 0⟩⟩, some ⟨⟨7, 0⟩, [8]⟩), (⟨2, ⟨⟨0, 0⟩, 1⟩⟩, none),
          (⟨2, ⟨⟨0, 0⟩, 0⟩⟩, some ⟨⟨7, 0⟩, [8]⟩)] ∧
      (getReplicatedUnitOnceOpts decodeByte ⟨.quorum, false⟩ 2
        ⟨true, ((View.drainingView 2 [3, 2] [2, 1]).routedReplicasWithUnit ⟨0, 0⟩).1⟩
        ((halfLegs 0 1).map report)).repairs = [⟨2, ⟨⟨0, 0⟩, 0⟩, ⟨⟨7, 0⟩, [8]⟩⟩] :=
  ⟨by decide, rfl⟩

end Shale.UnionRead
