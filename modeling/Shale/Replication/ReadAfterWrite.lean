import Shale.Replication.QuorumRead
import Shale.Replication.WriteDurability

/-!
# Quorum reads after quorum writes

A read of several sweeps, each asking the legs of a placement once, against a write that was
acked before it. The last sweep decides on the answers it has, however few, so the read sees
the write for certain exactly when too few legs stay silent to make a write quorum.
-/

namespace Shale

open List

open Function (comp_apply comp_def)

/-- How a read leg ends, apart from what its position holds. -/
inductive LegFate where
  | answers
  | corrupt
  | transient
  | unreachable
  | failed
deriving DecidableEq

/-- One leg of a sweep: its index among the routed legs, how it ends, and the database of
its position when the leg reads it. -/
structure ReadLeg where
  index : Nat
  fate : LegFate
  store : Store Envelope

abbrev SweepPattern := List (Nat × LegFate)

namespace SweepPattern

def settles (pattern : SweepPattern) : Bool :=
  pattern.any fun leg => leg.2 == .answers || leg.2 == .corrupt || leg.2 == .failed

def answering (pattern : SweepPattern) : List Nat :=
  (pattern.filter fun leg => leg.2 == .answers).map Prod.fst

def unheard (pattern : SweepPattern) (positions : List ReplicaUnit) : List Nat :=
  (List.range positions.length).filter fun i =>
    positions[i]?.any fun ru => decide (ru ∉ entriesAt positions pattern.answering)

theorem mem_answering {pattern : SweepPattern} {i : Nat} :
    i ∈ pattern.answering ↔ (i, .answers) ∈ pattern := by
  simp [answering]

theorem mem_unheard {pattern : SweepPattern} {positions : List ReplicaUnit} {i : Nat} :
    i ∈ pattern.unheard positions ↔
      ∃ ru, positions[i]? = some ru ∧ ru ∉ entriesAt positions pattern.answering := by
  simp only [unheard, mem_filter, mem_range, Option.any_eq_true, decide_eq_true_eq]
  constructor
  · rintro ⟨-, found⟩
    exact found
  · rintro ⟨ru, found, absent⟩
    exact ⟨(List.getElem?_eq_some_iff.mp found).1, ru, found, absent⟩

end SweepPattern

namespace ReadLeg

variable {key : Bytes} {leg : ReadLeg} {sweep : List ReadLeg}

def answer (key : Bytes) (leg : ReadLeg) : LegAnswer :=
  match leg.fate with
  | .answers => (leg.store.get key).elim .notFound .value
  | .corrupt => .undecodable
  | .transient => .transient
  | .unreachable => .unreachable
  | .failed => .failed

def pattern (sweep : List ReadLeg) : SweepPattern :=
  sweep.map fun leg => (leg.index, leg.fate)

theorem answered_iff (key : Bytes) (leg : ReadLeg) :
    (leg.answer key).answered = true ↔ leg.fate = .answers := by
  cases fate : leg.fate <;> simp only [answer, fate, LegAnswer.answered, reduceCtorEq]
  cases leg.store.get key <;> simp

theorem hard_iff (key : Bytes) (leg : ReadLeg) :
    (leg.answer key).hard = true ↔ leg.fate = .corrupt ∨ leg.fate = .failed := by
  cases fate : leg.fate <;>
    simp [answer, fate, LegAnswer.hard]
  cases leg.store.get key <;> simp

theorem getReplicatedUnitOnce_of_silent (opts : ReadOpts) (stableR : Nat) (key : Bytes)
    (asked : sweep ≠ []) (silent : (pattern sweep).answering = []) :
    if (pattern sweep).settles then
      getReplicatedUnitOnce opts stableR (sweep.map (answer key)) = .error .hard else
      getReplicatedUnitOnce opts stableR (sweep.map (answer key)) = .error .acquiring ∨
        getReplicatedUnitOnce opts stableR (sweep.map (answer key)) = .error .unreachableOnly := by
  have quiet : ∀ leg ∈ sweep, leg.fate ≠ .answers := by
    simpa [SweepPattern.answering, pattern, filter_eq_nil_iff] using silent
  have unanswered : ∀ reported ∈ sweep.map (answer key), reported.answered = false := by
    intro reported mem
    obtain ⟨leg, present, rfl⟩ := mem_map.mp mem
    rw [← Bool.not_eq_true, answered_iff]
    exact quiet leg present
  have settles : (pattern sweep).settles = (sweep.map (answer key)).any LegAnswer.hard := by
    rw [Bool.eq_iff_iff]
    simp only [SweepPattern.settles, pattern, any_map, any_eq_true,
      comp_apply, Bool.or_eq_true, beq_iff_eq, hard_iff]
    constructor
    · rintro ⟨leg, present, (answers | corrupt) | failed⟩
      · exact absurd answers (quiet leg present)
      · exact ⟨leg, present, .inl corrupt⟩
      · exact ⟨leg, present, .inr failed⟩
    · rintro ⟨leg, present, corrupt | failed⟩
      · exact ⟨leg, present, .inl (.inr corrupt)⟩
      · exact ⟨leg, present, .inr failed⟩
  rw [settles]
  exact getReplicatedUnitOnce_of_unanswered unanswered (by simpa using asked)

theorem getReplicatedUnitOnce_of_settles (opts : ReadOpts) (key : Bytes) {stableR : Nat}
    (some_r : 0 < stableR) (settles : (pattern sweep).settles = true) :
    getReplicatedUnitOnce opts stableR (sweep.map (answer key)) ≠ .error .acquiring ∧
      getReplicatedUnitOnce opts stableR (sweep.map (answer key)) ≠ .error .unreachableOnly := by
  have asked : sweep ≠ [] := by
    rintro rfl
    cases settles
  by_cases silent : (pattern sweep).answering = []
  · have error := getReplicatedUnitOnce_of_silent opts stableR key asked silent
    simp only [settles, ↓reduceIte] at error
    simp [error]
  · obtain ⟨i, mem⟩ := exists_mem_of_ne_nil _ silent
    obtain ⟨leg, present, same⟩ := mem_map.mp (SweepPattern.mem_answering.mp mem)
    exact getReplicatedUnitOnce_of_answered some_r (mem_map_of_mem present)
      ((answered_iff key leg).mpr (Prod.mk.inj same).2)

theorem answering_eq_nil_of_unsettled (unsettled : (pattern sweep).settles = false) :
    (pattern sweep).answering = [] := by
  simp only [SweepPattern.settles, any_eq_false, Bool.or_eq_true, beq_iff_eq,
    not_or] at unsettled
  simp only [SweepPattern.answering, map_eq_nil_iff, filter_eq_nil_iff, beq_iff_eq]
  exact fun leg member => (unsettled leg member).1.1

theorem getReplicatedUnit_eq_ok {opts : ReadOpts} {stableR : Nat} {sweeps : List (List ReadLeg)}
    {env : Envelope} (some_r : 0 < stableR) (asked : ∀ sweep ∈ sweeps, sweep ≠ []) :
    getReplicatedUnit opts stableR (sweeps.map (List.map (answer key))) = .ok env ↔
      ∃ sweep, sweeps.find? (fun sweep => (pattern sweep).settles) = some sweep ∧
        getReplicatedUnitOnce opts stableR (sweep.map (answer key)) = .ok env := by
  induction sweeps with
  | nil => simp [getReplicatedUnit]
  | cons first rest ih =>
    have later := ih fun sweep member => asked sweep (by simp [member])
    by_cases settles : (pattern first).settles = true
    · obtain ⟨handoff, unreachable⟩ := getReplicatedUnitOnce_of_settles opts key
        some_r settles
      simp only [List.find?_cons, settles, Option.some.injEq, exists_eq_left']
      cases rest with
      | nil => rfl
      | cons second more =>
        rw [map_cons, map_cons, getReplicatedUnit]
        · split <;> simp_all
        · simp
    · rw [Bool.not_eq_true] at settles
      have error := getReplicatedUnitOnce_of_silent opts stableR key
        (asked first (by simp)) (answering_eq_nil_of_unsettled settles)
      simp only [settles, Bool.false_eq_true, ↓reduceIte] at error
      simp only [List.find?_cons, settles]
      rw [← later]
      cases rest with
      | nil => rcases error with error | error <;> simp [getReplicatedUnit, error]
      | cons second more =>
        rcases error with error | error <;> simp [getReplicatedUnit, error]

end ReadLeg

structure View.PlacesAt (v : View) (h : ShardHash) (gu : GenUnit) (members : List Nat) : Prop where
  noJoin : v.joining = []
  noDrain : v.draining = []
  steady : v.gs.nextCount = none
  resolves : v.gs.resolveGenUnit h = gu
  placed : v.unitReplicas gu = members

/-- The sweeps of a read that begins when the positions hold `db`: when a leg reads a position,
the stamp of the key there has not fallen. An apply compares and so never lowers it; a CAS commit,
which does not, may. -/
structure ReadsAfter (positions : List ReplicaUnit) (db : ReplicaUnit → Store Envelope)
    (key : Bytes) (patterns : List SweepPattern) (sweeps : List (List ReadLeg)) : Prop where
  along : sweeps.map ReadLeg.pattern = patterns
  kept : ∀ sweep ∈ sweeps, ∀ leg ∈ sweep, ∀ ru, positions[leg.index]? = some ru →
    ∀ stamp, (db ru).HoldsAtLeast key stamp → leg.store.HoldsAtLeast key stamp

section Stable

variable {v : View} {h : ShardHash} {gu : GenUnit} {members : List Nat}

section

variable (stable : v.PlacesAt h gu members)
include stable

theorem View.PlacesAt.writeRoute (wc : WriteConsistency) :
    v.writeRoute wc h =
      { auth := legsAt gu members, supp := [], bar := requiredWriteAcks wc members.length } := by
  rw [v.writeRoute_of_stable stable.noJoin stable.noDrain stable.steady, stable.resolves,
    stable.placed]

theorem View.PlacesAt.routedReplicasWithUnit :
    v.routedReplicasWithUnit (v.gs.resolveGenUnit h) = (legsAt gu members, members.length) := by
  rw [v.routedReplicasWithUnit_of_stable stable.noJoin stable.noDrain, stable.resolves,
    stable.placed]

theorem View.PlacesAt.members_pos : 0 < members.length := by
  rw [← stable.placed]
  exact length_pos_iff.mpr (v.unitReplicas_ne_nil gu)

end

theorem exists_heard_of_acked {positions : List ReplicaUnit} {pattern : SweepPattern}
    {acked : List Nat} (different : acked.Nodup) (inRange : ∀ i ∈ acked, i < positions.length)
    (fewer : (pattern.unheard positions).length < acked.length) :
    ∃ ru ∈ entriesAt positions acked, ru ∈ entriesAt positions pattern.answering := by
  by_contra! apart
  have inside : acked ⊆ pattern.unheard positions := by
    intro i mem
    have found := List.getElem?_eq_getElem (inRange i mem)
    exact SweepPattern.mem_unheard.mpr
      ⟨_, found, apart _ (mem_entriesAt.mpr ⟨i, mem, found⟩)⟩
  have := (subperm_of_subset different inside).length_le
  omega

theorem ReadsAfter.stamp_le {rc : ReadConsistency} (strict : rc ≠ .nearest)
    {positions : List ReplicaUnit} {db : ReplicaUnit → Store Envelope}
    {patterns : List SweepPattern} {sweeps : List (List ReadLeg)}
    {key : Bytes} (reads : ReadsAfter positions db key patterns sweeps) {sweep : List ReadLeg}
    (present : sweep ∈ sweeps) {ru : ReplicaUnit}
    (heard : ru ∈ entriesAt positions (ReadLeg.pattern sweep).answering) {stamp : Stamp}
    (held : (db ru).HoldsAtLeast key stamp) {stableR : Nat} {env : Envelope}
    (returned : getReplicatedUnitOnce ⟨rc, false⟩ stableR (sweep.map (ReadLeg.answer key)) =
      .ok env) : stamp ≤ env.stamp := by
  obtain ⟨i, answering, found⟩ := mem_entriesAt.mp heard
  obtain ⟨leg, mem, same⟩ := mem_map.mp (SweepPattern.mem_answering.mp answering)
  obtain ⟨rfl, fate⟩ := Prod.mk.inj same
  obtain ⟨stored, get, le⟩ := reads.kept sweep present leg mem ru found _ held
  have arrives : .value stored ∈ sweep.map (ReadLeg.answer key) := by
    refine mem_map.mpr ⟨leg, mem, ?_⟩
    simp [ReadLeg.answer, fate, get]
  exact le.trans (getReplicatedUnitOnce_ge strict arrives returned)

def heldAt (key : Bytes) (env : Envelope) (held : List ReplicaUnit) (ru : ReplicaUnit) :
    Store Envelope :=
  if ru ∈ held then Store.put ∅ key env else ∅

def sweepOf (positions : List ReplicaUnit) (db : ReplicaUnit → Store Envelope)
    (pattern : SweepPattern) : List ReadLeg :=
  pattern.map fun leg => ⟨leg.1, leg.2, positions[leg.1]?.elim ∅ db⟩

section

variable (positions : List ReplicaUnit) (db : ReplicaUnit → Store Envelope)
include positions db

theorem pattern_sweepOf (pattern : SweepPattern) :
    ReadLeg.pattern (sweepOf positions db pattern) = pattern := by
  simp [ReadLeg.pattern, sweepOf, comp_def]

theorem find?_sweepOf (patterns : List SweepPattern) :
    (patterns.map (sweepOf positions db)).find? (fun sweep => (ReadLeg.pattern sweep).settles) =
      (patterns.find? SweepPattern.settles).map (sweepOf positions db) := by
  have same : (fun sweep => (ReadLeg.pattern sweep).settles) ∘ sweepOf positions db =
      SweepPattern.settles :=
    funext fun pattern => congrArg SweepPattern.settles (pattern_sweepOf positions db pattern)
  rw [List.find?_map, same]

theorem readsAfter_sweepOf (key : Bytes) (patterns : List SweepPattern) :
    ReadsAfter positions db key patterns (patterns.map (sweepOf positions db)) where
  along := by simp [comp_def, pattern_sweepOf]
  kept := by
    intro sweep present leg mem ru found stamp held
    obtain ⟨pattern, -, rfl⟩ := mem_map.mp present
    obtain ⟨reported, -, rfl⟩ := mem_map.mp mem
    simpa only [found, Option.elim_some] using held

end

theorem getReplicatedUnitOnce_sweepOf (rc : ReadConsistency) {positions : List ReplicaUnit}
    {held : List ReplicaUnit} {pattern : SweepPattern} {stableR : Nat} (some_r : 0 < stableR)
    (answers : pattern.answering ≠ [])
    (apart : ∀ ru ∈ entriesAt positions pattern.answering, ru ∉ held) (key : Bytes)
    (env : Envelope) :
    getReplicatedUnitOnce ⟨rc, false⟩ stableR
      ((sweepOf positions (heldAt key env held) pattern).map (ReadLeg.answer key)) =
        .ok Envelope.zero := by
  have silent : ∀ leg ∈ pattern, leg.2 = .answers →
      ReadLeg.answer key ⟨leg.1, leg.2, positions[leg.1]?.elim ∅ (heldAt key env held)⟩ =
        .notFound := by
    rintro ⟨i, fate⟩ mem rfl
    cases found : positions[i]? with
    | none => simp [ReadLeg.answer]
    | some ru =>
      have missing := apart ru
        (mem_entriesAt.mpr ⟨i, SweepPattern.mem_answering.mpr mem, found⟩)
      simp [ReadLeg.answer, heldAt, missing]
  apply getReplicatedUnitOnce_of_absent some_r rfl
  · intro stored arrives
    simp only [sweepOf, map_map, mem_map, comp_apply] at arrives
    obtain ⟨leg, mem, same⟩ := arrives
    by_cases fate : leg.2 = .answers
    · rw [silent leg mem fate] at same
      cases same
    · have := (ReadLeg.answered_iff key
        ⟨leg.1, leg.2, positions[leg.1]?.elim ∅ (heldAt key env held)⟩).not.mpr fate
      rw [same] at this
      exact this rfl
  · obtain ⟨i, mem⟩ := exists_mem_of_ne_nil _ answers
    have present := SweepPattern.mem_answering.mp mem
    simp only [sweepOf, map_map, mem_map, comp_apply]
    exact ⟨_, present, silent _ present rfl⟩

/-- A `Put` of the stamp that has returned: the positions that acked it hold it in `db`, or a newer
one. -/
structure AckedBefore (h : ShardHash) (gu : GenUnit) (members : List Nat)
    (run : List (View × AttemptTrace)) (db : ReplicaUnit → Store Envelope) (key : Bytes)
    (stamp : Stamp) : Prop where
  stable : ∀ attempt ∈ run, attempt.1.PlacesAt h gu members
  follows : ∀ attempt ∈ run, attempt.2.Follows (attempt.1.writeRoute .quorum h)
  acked : ∃ bar applied, putReplicatedUnit .quorum h run = some (bar, applied) ∧
    ∀ ru ∈ applied, (db ru).HoldsAtLeast key stamp

theorem AckedBefore.exists_acked {run : List (View × AttemptTrace)}
    {db : ReplicaUnit → Store Envelope} {key : Bytes} {stamp : Stamp}
    (before : AckedBefore h gu members run db key stamp) :
    ∃ acked : List Nat, acked.Nodup ∧ (∀ i ∈ acked, i < members.length) ∧
      requiredWriteAcks .quorum members.length ≤ acked.length ∧
      ∀ ru ∈ entriesAt ((legsAt gu members).map RoutedReplica.ru) acked,
        (db ru).HoldsAtLeast key stamp := by
  obtain ⟨bar, applied, returned, stored⟩ := before.acked
  obtain ⟨attempt, mem, asked, met, inside⟩ := exists_acked_attempt returned
  have follows := before.follows attempt mem
  have route := (before.stable attempt mem).writeRoute .quorum
  rw [route] at asked follows
  subst asked
  refine ⟨attempt.2.acked, nodup_acked follows.once, ?_, ?_, ?_⟩
  · simpa using follows.acked_lt
  · rw [← acks_eq_length_acked]
    exact met
  · exact fun ru acked => stored ru (inside (follows.durable ru acked))

theorem exists_ackedBefore_of_unheard (stable : v.PlacesAt h gu members) (key : Bytes)
    (env : Envelope) {pattern : SweepPattern} (enough : requiredWriteAcks .quorum members.length ≤
      (pattern.unheard ((legsAt gu members).map RoutedReplica.ru)).length) :
    ∃ run held, AckedBefore h gu members run (heldAt key env held) key env.stamp ∧
      ∀ ru ∈ entriesAt ((legsAt gu members).map RoutedReplica.ru) pattern.answering, ru ∉ held := by
  let positions := (legsAt gu members).map RoutedReplica.ru
  let trace := ackTrace (v.writeRoute .quorum h) (pattern.unheard positions)
  have route := stable.writeRoute .quorum
  have applied : trace.applied = entriesAt positions (pattern.unheard positions) := by
    simp only [trace, ackTrace, route, positions]
  refine ⟨[(v, trace)], trace.applied, ⟨?_, ?_, ?_⟩, ?_⟩
  · intro attempt mem
    obtain rfl := mem_singleton.mp mem
    exact stable
  · intro attempt mem
    obtain rfl := mem_singleton.mp mem
    apply ackTrace_follows (nodup_range.filter _)
    · intro i unheard
      obtain ⟨ru, found, -⟩ := SweepPattern.mem_unheard.mp unheard
      have below := (List.getElem?_eq_some_iff.mp found).1
      simpa [route, positions] using below
    · exact v.writeRoute_bar_pos .quorum h
    · rw [route]
      exact enough
  · refine ⟨(v.writeRoute .quorum h).bar, trace.applied, ?_, ?_⟩
    · have bar : (v.writeRoute .quorum h).bar ≤ (pattern.unheard positions).length := by
        rw [route]
        exact enough
      have acked := putReplicatedUnitAttempt_ackTrace (v.writeRoute_auth_ne_nil .quorum h) bar
      simp only [putReplicatedUnit, trace, acked]
    · intro ru there
      exact ⟨env, by simp [heldAt, there], le_rfl⟩
  · intro ru heard there
    rw [applied, mem_entriesAt] at there
    obtain ⟨i, unheard, found⟩ := there
    obtain ⟨other, same, absent⟩ := SweepPattern.mem_unheard.mp unheard
    cases same.symm.trans found
    exact absent heard

end Stable

/-- Three replicas, stable. -/
def trioView : View where
  self := 0
  r := 3
  gs := .steady 0 .one
  joining := []
  draining := []
  locate := fun _ _ => [0, 1, 2]

/-- Positions 0 and 1 hold a write of stamp 2, which position 2 has not got yet. -/
def laggingDb (ru : ReplicaUnit) : Store Envelope :=
  if ru.replica = 2 then Store.put ∅ [7] ⟨⟨1, 0⟩, [1]⟩ else Store.put ∅ [7] ⟨⟨2, 0⟩, [2]⟩

theorem trioView_placesAt : trioView.PlacesAt 0 ⟨0, 0⟩ [0, 1, 2] :=
  ⟨rfl, rfl, rfl, by decide, by decide⟩

theorem laggingDb_ackedBefore :
    AckedBefore 0 ⟨0, 0⟩ [0, 1, 2] [(trioView, ackTrace (trioView.writeRoute .quorum 0) [0, 1])]
      laggingDb [7] ⟨2, 0⟩ where
  stable := by
    intro attempt mem
    obtain rfl := mem_singleton.mp mem
    exact trioView_placesAt
  follows := by
    intro attempt mem
    obtain rfl := mem_singleton.mp mem
    exact ackTrace_follows (by decide) (by decide) (by decide) (by decide)
  acked := ⟨2, [⟨⟨0, 0⟩, 0⟩, ⟨⟨0, 0⟩, 1⟩], by decide, by decide⟩

end Shale
