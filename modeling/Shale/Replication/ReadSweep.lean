import Shale.Foundation.LastWriter
import Shale.Replication.QuorumRead
import Shale.Replication.WriteRefusal

/-!
# A read sweep and the order of its answers

`getReplicatedUnitOnceOpts` with the errors its legs return, the members that answered and the
repairs it schedules. It takes the answers in the order in which they arrive. What it decides
depends on that order in one way only: where no leg has answered, the first hard error is
returned, or the first dial error if all else is unreachable.
-/

namespace Shale.ReadSweep

open Gathered List

open LastWriter (IsLatest)
open WriteRefusal (Code)

deriving instance DecidableEq for Code

/-- The errors of a read leg: the acquiring refusal of this process, an error with a gRPC status,
one that wraps `backend.ErrClosed`, one that wraps `backend.ErrNotFound`, and any other. -/
inductive LegError where
  | acquiring (message : String)
  | status (code : Code) (message : String)
  | closed (message : String)
  | notFound (message : String)
  | plain (message : String)
deriving DecidableEq

namespace LegError

def isTransientReplicaErr : LegError → Bool
  | .acquiring _ => true
  | .status code _ => decide (code = .resourceExhausted)
  | _ => false

def isTransientReadLegErr (err : LegError) : Bool :=
  err.isTransientReplicaErr ||
    match err with
    | .closed _ => true
    | .status code message => decide (code = .unknown ∧ message = "backend: closed")
    | _ => false

def isUnreachableLegErr : LegError → Bool
  | .acquiring _ => true
  | .status code _ => decide (code = .unavailable)
  | _ => false

def isNotFound : LegError → Bool
  | .notFound _ => true
  | _ => false

end LegError

structure LegResult where
  member : Nat
  result : Except LegError Bytes

/-- `collected`; no envelope stands for `hadValue` being false. -/
structure Collected where
  member : Nat
  env : Option Envelope

/-- The variables of the gather loop. -/
structure Sweep where
  gathered : List Collected
  nonTransientErr : Option LegError
  firstUnreachable : Option LegError
  sawHandoffTransient : Bool
  usable : Nat

inductive SweepError where
  | noReplicas
  | leg (err : LegError)
  | acquiring
  | unreachableOnly (inner : LegError)
  | subQuorumAbsence
  | notFound
deriving DecidableEq

/-- A write that the sweep schedules. -/
structure Repair where
  member : Nat
  ru : ReplicaUnit
  env : Envelope

structure Outcome where
  result : Except SweepError Bytes
  repairs : List Repair
  observed : Nat

/-- What a sweep meets besides its answers: whether repairs are still accepted, and the legs the
key is routed to when they are scheduled. -/
structure RepairSite where
  accepts : Bool
  routed : List RoutedReplica

section Model

variable (decode : Bytes → Except String Envelope)

def Sweep.add (rc : ReadConsistency) (n : Nat) (s : Sweep) (res : LegResult) : Sweep :=
  match res.result with
  | .error err =>
    if err.isTransientReadLegErr then { s with sawHandoffTransient := true }
    else if err.isUnreachableLegErr then
      { s with firstUnreachable := s.firstUnreachable.or (some err) }
    else if err.isNotFound then
      if s.usable < n then
        { s with gathered := s.gathered ++ [⟨res.member, none⟩], usable := s.usable + 1 }
      else s
    else { s with nonTransientErr := s.nonTransientErr.or (some err) }
  | .ok bytes =>
    match decode bytes with
    | .error message => { s with nonTransientErr := s.nonTransientErr.or (some (.plain message)) }
    | .ok env =>
      if s.usable < n then
        { s with gathered := s.gathered ++ [⟨res.member, some env⟩], usable := s.usable + 1 }
      else if rc ≠ .nearest then
        { s with gathered := s.gathered ++ [⟨res.member, some env⟩] }
      else s

def sweep (rc : ReadConsistency) (n : Nat) (results : List LegResult) : Sweep :=
  results.foldl (Sweep.add decode rc n) ⟨[], none, none, false, 0⟩

def better (winner candidate : Collected) : Collected :=
  match candidate.env, winner.env with
  | none, _ => winner
  | some _, none => candidate
  | some env, some best => if env.stamp.greater best.stamp then candidate else winner

def RepairSite.ruByMember (site : RepairSite) (member : Nat) : Option ReplicaUnit :=
  (site.routed.reverse.find? fun rr => rr.member = member).map RoutedReplica.ru

def scheduleReadRepairUnit (site : RepairSite) (winner : Envelope) (gathered : List Collected) :
    List Repair :=
  if site.accepts then
    (gathered.filter fun g => g.env.all fun env => winner.stamp.greater env.stamp).filterMap
      fun g => (site.ruByMember g.member).map fun ru => ⟨g.member, ru, winner⟩
  else []

def Sweep.unanswered (quorumAbsence : Bool) (s : Sweep) : SweepError :=
  match s.nonTransientErr, s.firstUnreachable with
  | some err, _ => .leg err
  | none, unreachable =>
    if s.sawHandoffTransient then .acquiring
    else
      match unreachable with
      | some err => .unreachableOnly err
      | none => if quorumAbsence then .subQuorumAbsence else .notFound

def getReplicatedUnitOnceOpts (opts : ReadOpts) (stableR : Nat) (site : RepairSite)
    (results : List LegResult) : Outcome :=
  if results = [] then ⟨.error .noReplicas, [], 0⟩
  else
    let n := min (requiredReadReplicas opts.rc stableR) results.length
    let s := sweep decode opts.rc n results
    match s.gathered with
    | [] => ⟨.error (s.unanswered opts.quorumAbsence), [], 0⟩
    | first :: rest =>
      match (rest.foldl better first).env with
      | some env =>
        ⟨if env.payload = [] then .error .notFound else .ok env.payload,
          if opts.rc ≠ .nearest then scheduleReadRepairUnit site env s.gathered else [],
          env.stamp.timestamp⟩
      | none =>
        ⟨if opts.quorumAbsence ∧ s.usable < n then .error .subQuorumAbsence
          else .error .notFound, [], 0⟩

end Model

section Classes

variable (decode : Bytes → Except String Envelope)

def classify (res : LegResult) : LegAnswer :=
  match res.result with
  | .error err =>
    if err.isTransientReadLegErr then .transient
    else if err.isUnreachableLegErr then .unreachable
    else if err.isNotFound then .notFound
    else .failed
  | .ok bytes =>
    match decode bytes with
    | .error _ => .undecodable
    | .ok env => .value env

def value (res : LegResult) : Option Envelope :=
  match classify decode res with
  | .value env => some env
  | _ => none

def hardError (res : LegResult) : Option LegError :=
  match classify decode res, res.result with
  | .failed, .error err => some err
  | .undecodable, .ok bytes =>
    match decode bytes with
    | .error message => some (.plain message)
    | .ok _ => none
  | _, _ => none

def dialError (res : LegResult) : Option LegError :=
  match classify decode res, res.result with
  | .unreachable, .error err => some err
  | _, _ => none

def Sweep.classes (s : Sweep) : Gathered where
  collected := s.gathered.map Collected.env
  usable := s.usable
  hard := s.nonTransientErr.isSome
  handoff := s.sawHandoffTransient
  unreachable := s.firstUnreachable.isSome

theorem add_eq (rc : ReadConsistency) (n : Nat) (s : Sweep) (res : LegResult) :
    (s.add decode rc n res).classes = s.classes.add rc n (classify decode res) ∧
      (s.add decode rc n res).nonTransientErr = s.nonTransientErr.or (hardError decode res) ∧
      (s.add decode rc n res).firstUnreachable = s.firstUnreachable.or (dialError decode res) := by
  obtain ⟨mem, result⟩ := res
  cases result with
  | error err =>
    by_cases transient : err.isTransientReadLegErr = true
    · simp [Sweep.add, Sweep.classes, classify, hardError, dialError, add, transient]
    · by_cases unreachable : err.isUnreachableLegErr = true
      · simp [Sweep.add, Sweep.classes, classify, hardError, dialError, add, transient,
          unreachable]
      · by_cases missing : err.isNotFound = true
        · by_cases room : s.usable < n
          all_goals simp [Sweep.add, Sweep.classes, classify, hardError, dialError,
            add, transient, unreachable, missing, room]
        · simp [Sweep.add, Sweep.classes, classify, hardError, dialError, add, transient,
            unreachable, missing]
  | ok bytes =>
    cases decoded : decode bytes with
    | error message =>
      simp [Sweep.add, Sweep.classes, classify, hardError, dialError, add, decoded]
    | ok env =>
      by_cases room : s.usable < n
      · simp [Sweep.add, Sweep.classes, classify, hardError, dialError, add, decoded, room]
      · by_cases strict : rc = .nearest
        all_goals simp [Sweep.add, Sweep.classes, classify, hardError, dialError,
          add, decoded, room, strict]

theorem findSome_cons_or {f : LegResult → Option LegError} (res : LegResult)
    (rest : List LegResult) : (res :: rest).findSome? f = (f res).or (rest.findSome? f) := by
  rw [List.findSome?_cons]
  cases f res <;> rfl

theorem foldl_add_eq (rc : ReadConsistency) (n : Nat) (results : List LegResult) (s : Sweep) :
    (results.foldl (Sweep.add decode rc n) s).classes =
        (results.map (classify decode)).foldl (add rc n) s.classes ∧
      (results.foldl (Sweep.add decode rc n) s).nonTransientErr =
        s.nonTransientErr.or (results.findSome? (hardError decode)) ∧
      (results.foldl (Sweep.add decode rc n) s).firstUnreachable =
        s.firstUnreachable.or (results.findSome? (dialError decode)) := by
  induction results generalizing s with
  | nil => simp
  | cons res rest ih =>
    obtain ⟨classes, hard, dial⟩ := add_eq decode rc n s res
    obtain ⟨later, laterHard, laterDial⟩ := ih (s.add decode rc n res)
    rw [foldl_cons, later, laterHard, laterDial, classes, hard, dial, findSome_cons_or,
      findSome_cons_or, Option.or_assoc, Option.or_assoc]
    exact ⟨rfl, rfl, rfl⟩

theorem sweep_eq (rc : ReadConsistency) (n : Nat) (results : List LegResult) :
    (sweep decode rc n results).classes = gather rc n (results.map (classify decode)) ∧
      (sweep decode rc n results).nonTransientErr = results.findSome? (hardError decode) ∧
      (sweep decode rc n results).firstUnreachable = results.findSome? (dialError decode) := by
  obtain ⟨classes, hard, dial⟩ := foldl_add_eq decode rc n results ⟨[], none, none, false, 0⟩
  exact ⟨classes, hard, dial⟩

theorem env_better (winner candidate : Collected) :
    (better winner candidate).env = betterOf winner.env candidate.env := by
  unfold better betterOf
  cases found : candidate.env with
  | none => rfl
  | some env =>
    cases held : winner.env with
    | none => simpa using found
    | some best =>
      dsimp only
      split
      · exact found
      · exact held

theorem env_foldl_better (rest : List Collected) (first : Collected) :
    (rest.foldl better first).env = (rest.map Collected.env).foldl betterOf first.env := by
  induction rest generalizing first with
  | nil => rfl
  | cons candidate rest ih => rw [foldl_cons, ih, env_better, map_cons, foldl_cons]

inductive Returns (results : List LegResult) :
    Except ReadError Envelope → Except SweepError Bytes → Prop where
  | payload {env : Envelope} (present : env.payload ≠ []) :
      Returns results (.ok env) (.ok env.payload)
  | absent {env : Envelope} (empty : env.payload = []) :
      Returns results (.ok env) (.error .notFound)
  | noReplicas : Returns results (.error .noReplicas) (.error .noReplicas)
  | hard {err : LegError} (first : results.findSome? (hardError decode) = some err) :
      Returns results (.error .hard) (.error (.leg err))
  | acquiring : Returns results (.error .acquiring) (.error .acquiring)
  | unreachable {err : LegError} (first : results.findSome? (dialError decode) = some err) :
      Returns results (.error .unreachableOnly) (.error (.unreachableOnly err))
  | subQuorum : Returns results (.error .subQuorumAbsence) (.error .subQuorumAbsence)

theorem returns_unanswered {s : Sweep} {results : List LegResult} (quorumAbsence : Bool)
    (hard : s.nonTransientErr = results.findSome? (hardError decode))
    (dial : s.firstUnreachable = results.findSome? (dialError decode)) :
    Returns decode results (if s.classes.hard then .error .hard
        else if s.classes.handoff then .error .acquiring
        else if s.classes.unreachable then .error .unreachableOnly
        else if quorumAbsence then .error .subQuorumAbsence else .ok Envelope.zero)
      (.error (s.unanswered quorumAbsence)) := by
  unfold Sweep.classes Sweep.unanswered
  cases failed : s.nonTransientErr with
  | some err => exact .hard (hard.symm.trans failed)
  | none =>
    by_cases handoff : s.sawHandoffTransient = true
    · simp only [handoff, Option.isSome_none, Bool.false_eq_true, ↓reduceIte]
      exact .acquiring
    · simp only [handoff, Option.isSome_none, Bool.false_eq_true, ↓reduceIte]
      cases dialled : s.firstUnreachable with
      | some err => exact .unreachable (dial.symm.trans dialled)
      | none =>
        cases quorumAbsence with
        | true => exact .subQuorum
        | false => exact .absent rfl

theorem returns (opts : ReadOpts) (stableR : Nat) (site : RepairSite) (results : List LegResult) :
    Returns decode results (getReplicatedUnitOnce opts stableR (results.map (classify decode)))
      (getReplicatedUnitOnceOpts decode opts stableR site results).result := by
  unfold getReplicatedUnitOnce getReplicatedUnitOnceOpts
  by_cases asked : results = []
  · simp only [asked, map_nil, ↓reduceIte]
    exact .noReplicas
  · simp only [asked, map_eq_nil_iff, ↓reduceIte, length_map]
    obtain ⟨classes, hard, dial⟩ := sweep_eq decode opts.rc
      (min (requiredReadReplicas opts.rc stableR) results.length) results
    rw [← classes]
    generalize sweep decode opts.rc (min (requiredReadReplicas opts.rc stableR) results.length)
      results = s at *
    cases gathered : s.gathered with
    | nil =>
      have none_collected : s.classes.collected = [] := by simp [Sweep.classes, gathered]
      simp only [none_collected]
      exact returns_unanswered decode opts.quorumAbsence hard dial
    | cons first rest =>
      have collected : s.classes.collected = first.env :: rest.map Collected.env := by
        simp [Sweep.classes, gathered]
      simp only [collected, ← env_foldl_better]
      cases (rest.foldl better first).env with
      | some env =>
        dsimp only
        split
        case isTrue empty => exact .absent empty
        case isFalse present => exact .payload present
      | none =>
        have counted : s.classes.usable = s.usable := rfl
        simp only [counted]
        split
        · exact .subQuorum
        · exact .absent rfl

end Classes

section Order

variable {rc : ReadConsistency} {n : Nat} {answers answers' : List LegAnswer} {g : Gathered}

def DistinctStamps (answers : List LegAnswer) : Prop :=
  ∀ env env', .value env ∈ answers → .value env' ∈ answers → env.stamp = env'.stamp → env = env'

theorem getReplicatedUnitOnce_perm {opts : ReadOpts} (strict : opts.rc ≠ .nearest)
    (distinct : DistinctStamps answers) (reordered : answers'.Perm answers) (stableR : Nat) :
    getReplicatedUnitOnce opts stableR answers' = getReplicatedUnitOnce opts stableR answers := by
  by_cases found : ∃ env, .value env ∈ answers
  · obtain ⟨env, arrives⟩ := found
    have hears : ∀ {answers : List LegAnswer}, .value env ∈ answers → ∃ best,
        getReplicatedUnitOnce opts stableR answers = .ok best ∧ .value best ∈ answers ∧
          env.stamp ≤ best.stamp := getReplicatedUnitOnce_of_value strict
    obtain ⟨best, decides, heard, -⟩ := hears arrives
    obtain ⟨best', decides', heard', -⟩ := hears (reordered.mem_iff.mpr arrives)
    have above := getReplicatedUnitOnce_ge strict (reordered.mem_iff.mp heard') decides
    have below := getReplicatedUnitOnce_ge strict (reordered.mem_iff.mpr heard) decides'
    rw [decides, decides', distinct best best' heard (reordered.mem_iff.mp heard')
      (le_antisymm below above)]
  · have silent := not_exists.mp found
    have silent' : ∀ env, .value env ∉ answers' :=
      fun env arrives => silent env (reordered.mem_iff.mp arrives)
    by_cases asked : answers = []
    · subst asked
      rw [perm_nil.mp reordered]
    · have asked' : answers' ≠ [] := fun none_ => asked (nil_perm.mp (none_ ▸ reordered))
      rw [getReplicatedUnitOnce_of_no_value silent asked,
        getReplicatedUnitOnce_of_no_value silent' asked', reordered.length_eq,
        reordered.countP_eq, reordered.any_eq, reordered.any_eq, reordered.any_eq]

end Order

section Independence

variable (decode : Bytes → Except String Envelope)

inductive SameOutcome (results : List LegResult) :
    Except SweepError Bytes → Except SweepError Bytes → Prop where
  | same (result : Except SweepError Bytes) : SameOutcome results result result
  | hard {err err' : LegError}
      (silent : ∀ res ∈ results, (classify decode res).answered = false)
      (reported : ∃ res ∈ results, hardError decode res = some err)
      (reported' : ∃ res ∈ results, hardError decode res = some err') :
      SameOutcome results (.error (.leg err)) (.error (.leg err'))
  | unreachable {err err' : LegError}
      (silent : ∀ res ∈ results, (classify decode res).answered = false)
      (reported : ∃ res ∈ results, dialError decode res = some err)
      (reported' : ∃ res ∈ results, dialError decode res = some err') :
      SameOutcome results (.error (.unreachableOnly err)) (.error (.unreachableOnly err'))

variable {decode} {opts : ReadOpts} {stableR : Nat} {results results' : List LegResult}

theorem silent_of_error (replicated : 0 < stableR)
    (failed : getReplicatedUnitOnce opts stableR (results.map (classify decode)) = .error .hard ∨
      getReplicatedUnitOnce opts stableR (results.map (classify decode)) =
        .error .unreachableOnly) : ∀ res ∈ results, (classify decode res).answered = false := by
  intro res mem
  rw [← Bool.not_eq_true]
  intro answered
  have decides : (∃ env, getReplicatedUnitOnce opts stableR (results.map (classify decode)) =
      .ok env) ∨ getReplicatedUnitOnce opts stableR (results.map (classify decode)) =
        .error .subQuorumAbsence :=
    decided_of_answered replicated (mem_map_of_mem mem) answered
  rcases decides with ⟨env, decides⟩ | decides <;> simp [decides] at failed

theorem sameOutcome (strict : opts.rc ≠ .nearest) (replicated : 0 < stableR)
    (distinct : DistinctStamps (results.map (classify decode))) (reordered : results'.Perm results)
    (site site' : RepairSite) :
    SameOutcome decode results (getReplicatedUnitOnceOpts decode opts stableR site results).result
      (getReplicatedUnitOnceOpts decode opts stableR site' results').result := by
  have left := returns decode opts stableR site results
  have right := returns decode opts stableR site' results'
  rw [getReplicatedUnitOnce_perm strict distinct (reordered.map (classify decode))] at right
  have reported : ∀ {f : LegResult → Option LegError} {err : LegError} {legs : List LegResult},
      legs.findSome? f = some err → ∃ res ∈ legs, f res = some err :=
    fun found => exists_of_findSome?_eq_some found
  have reported' : ∀ {f : LegResult → Option LegError} {err : LegError},
      results'.findSome? f = some err → ∃ res ∈ results, f res = some err := by
    intro f err found
    obtain ⟨res, mem, is⟩ := reported found
    exact ⟨res, reordered.mem_iff.mp mem, is⟩
  generalize decides : getReplicatedUnitOnce opts stableR (results.map (classify decode)) = decided
    at left right
  generalize (getReplicatedUnitOnceOpts decode opts stableR site results).result = result at left
  generalize (getReplicatedUnitOnceOpts decode opts stableR site' results').result = result'
    at right
  cases left with
  | hard first =>
    cases right with
    | hard first' =>
      exact .hard (silent_of_error replicated (.inl decides)) (reported first)
        (reported' first')
  | unreachable first =>
    cases right with
    | unreachable first' =>
      exact .unreachable (silent_of_error replicated (.inr decides)) (reported first)
        (reported' first')
  | payload present =>
    cases right with
    | payload => exact .same _
    | absent empty => exact absurd empty present
  | absent empty =>
    cases right with
    | payload present => exact absurd empty present
    | absent => exact .same _
  | noReplicas | acquiring | subQuorum =>
    cases right
    exact .same _

theorem mem_classes {env : Envelope} :
    .value env ∈ results.map (classify decode) ↔ ∃ res ∈ results, value decode res = some env := by
  rw [mem_map]
  refine exists_congr fun res => and_congr_right fun _ => ?_
  unfold value
  constructor
  · intro same
    rw [same]
  · intro found
    split at found
    case h_1 own same => rw [same, Option.some.inj found]
    case h_2 => cases found

theorem decides_of_mem_repairs {site : RepairSite} {repair : Repair}
    (scheduled : repair ∈ (getReplicatedUnitOnceOpts decode opts stableR site results).repairs) :
    getReplicatedUnitOnce opts stableR (results.map (classify decode)) = .ok repair.env := by
  unfold getReplicatedUnitOnceOpts at scheduled
  unfold getReplicatedUnitOnce
  by_cases asked : results = []
  · simp [asked] at scheduled
  · simp only [asked, map_eq_nil_iff, ↓reduceIte, length_map] at scheduled ⊢
    rw [← (sweep_eq decode opts.rc _ results).1]
    generalize sweep decode opts.rc (min (requiredReadReplicas opts.rc stableR) results.length)
      results = s at *
    cases gathered : s.gathered with
    | nil => simp [gathered] at scheduled
    | cons first rest =>
      have collected : s.classes.collected = first.env :: rest.map Collected.env := by
        simp [Sweep.classes, gathered]
      simp only [collected, ← env_foldl_better]
      rw [gathered] at scheduled
      cases won : (rest.foldl better first).env with
      | none => simp [won] at scheduled
      | some env =>
        simp only [won] at scheduled
        split at scheduled
        case isFalse => cases scheduled
        case isTrue =>
          unfold scheduleReadRepairUnit at scheduled
          split at scheduled
          case isFalse => cases scheduled
          case isTrue =>
            obtain ⟨lagger, -, made⟩ := mem_filterMap.mp scheduled
            obtain ⟨ru, -, rfl⟩ := Option.map_eq_some_iff.mp made
            rfl

theorem latest_of_value (strict : opts.rc ≠ .nearest)
    (found : ∃ res ∈ results, (value decode res).isSome) (site : RepairSite) :
    ∃ env, IsLatest Envelope.stamp (fun env => ∃ res ∈ results, value decode res = some env) env ∧
      (getReplicatedUnitOnceOpts decode opts stableR site results).result =
        (if env.payload = [] then .error .notFound else .ok env.payload) ∧
      ∀ repair ∈ (getReplicatedUnitOnceOpts decode opts stableR site results).repairs,
        repair.env = env := by
  obtain ⟨res, mem, some_value⟩ := found
  obtain ⟨some_env, is⟩ := Option.isSome_iff_exists.mp some_value
  obtain ⟨best, decides, heard, -⟩ : ∃ best,
      getReplicatedUnitOnce opts stableR (results.map (classify decode)) = .ok best ∧
        .value best ∈ results.map (classify decode) ∧ some_env.stamp ≤ best.stamp :=
    getReplicatedUnitOnce_of_value strict (mem_classes.mpr ⟨res, mem, is⟩)
  refine ⟨best, ⟨mem_classes.mp heard, fun env own => ?_⟩, ?_, fun repair scheduled => ?_⟩
  · exact getReplicatedUnitOnce_ge strict (mem_classes.mpr own) decides
  · have returned := returns decode opts stableR site results
    rw [decides] at returned
    generalize (getReplicatedUnitOnceOpts decode opts stableR site results).result = result
      at returned ⊢
    cases returned with
    | payload present => rw [if_neg present]
    | absent empty => rw [if_pos empty]
  · exact Except.ok.inj ((decides_of_mem_repairs scheduled).symm.trans decides)

end Independence

def decodeByte : Bytes → Except String Envelope
  | [] => .error "empty"
  | timestamp :: payload => .ok ⟨⟨timestamp.toNat, 0⟩, payload⟩

/-- Three legs: an older value, a miss and a newer value. -/
def mixedLegs : List LegResult :=
  [⟨1, .ok [5, 9]⟩, ⟨2, .error (.notFound "backend: key not found")⟩, ⟨3, .ok [7, 8]⟩]

theorem distinct_mixedLegs : DistinctStamps (mixedLegs.map (classify decodeByte)) := by
  intro env env' left right same
  have either : ∀ env : Envelope, LegAnswer.value env ∈ mixedLegs.map (classify decodeByte) →
      env = ⟨⟨5, 0⟩, [9]⟩ ∨ env = ⟨⟨7, 0⟩, [8]⟩ := by
    intro env mem
    have listed : mixedLegs.map (classify decodeByte) =
        [.value ⟨⟨5, 0⟩, [9]⟩, .notFound, .value ⟨⟨7, 0⟩, [8]⟩] := by decide
    simpa [listed] using mem
  rcases either env left with rfl | rfl <;> rcases either env' right with rfl | rfl
  · rfl
  · cases same
  · cases same
  · rfl

def failingLegs : List LegResult :=
  [⟨1, .error (.plain "disk 1: I/O error")⟩, ⟨2, .error (.plain "disk 2: I/O error")⟩]

end Shale.ReadSweep
