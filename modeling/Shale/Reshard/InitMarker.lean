import Shale.Foundation.Calls
import Shale.Foundation.CondStore
import Shale.Storage.Units

/-!
# The cluster's init marker

`pkg/cluster`: the `__cluster/init` object of a conditional store is the lock by which exactly
one node forms a cluster, and it keeps the generation and unit count that a restart resumes.
`bootstrapViaMarker` reads it or contends to create it, and `advanceClusterInitMarker` moves it
forward; both retry when they lose a race, for as long as it takes.

The stored bytes are the record itself. A call returns in the step of its last access to the
store.
-/

namespace Shale.InitMarker

open List

structure ClusterInitRecord where
  gen : Nat
  count : Nat
deriving DecidableEq

/-- The cluster's generation and unit count, as a node uses them. -/
structure Marker where
  gen : Nat
  count : UnitCount
deriving DecidableEq

def Marker.encode (m : Marker) : ClusterInitRecord := ⟨m.gen, m.count.n⟩

def decodeClusterInit (r : ClusterInitRecord) : Except String ClusterInitRecord :=
  if r.count = 0 then .error "unit count is zero" else .ok r

inductive Op where
  | bootstrap (unitCount : UnitCount)
  | advance (newGen : Nat) (newCount : UnitCount)
deriving DecidableEq

/-- What a call returns. A store error stands as the text in front of it. -/
inductive Result where
  | joined (gen : Nat) (count : UnitCount)
  | founded (count : UnitCount)
  | nil
  | failed (message : String)
deriving DecidableEq

/-- The access that a call makes next, with what it has read. -/
inductive Phase (Version : Type) where
  | bootGet (unitCount : UnitCount)
  | bootPut (unitCount : UnitCount)
  | advanceGet (newGen : Nat) (newCount : UnitCount)
  | advanceSet (newGen : Nat) (newCount : UnitCount) (version : Version)
  | returned (result : Result)
deriving DecidableEq

variable {Version : Type} [DecidableEq Version]

def Op.start : Op → Phase Version
  | .bootstrap unitCount => .bootGet unitCount
  | .advance newGen newCount => .advanceGet newGen newCount

/-- What a call writes if it writes. -/
def Op.proposal : Op → Marker
  | .bootstrap unitCount => ⟨0, unitCount⟩
  | .advance newGen newCount => ⟨newGen, newCount⟩

/-- The marker as the calls mean to use it: created once, then moved to later generations. -/
def atomic : Machine (Option Marker) Op where
  step
    | .bootstrap unitCount, none => some (some ⟨0, unitCount⟩)
    | .bootstrap _, some _ => none
    | .advance newGen newCount, some m =>
      if m.gen < newGen then some (some ⟨newGen, newCount⟩) else none
    | .advance .., none => none

def access (vs : Versions ClusterInitRecord Version) (obj : CondObject ClusterInitRecord) :
    Phase Version → CondObject ClusterInitRecord × Phase Version
  | .bootGet unitCount =>
    match obj.get vs with
    | none => (obj, .bootPut unitCount)
    | some (data, _) =>
      match decodeClusterInit data with
      | .error err =>
        (obj, .returned (.failed ("cluster: corrupt __cluster/init marker: " ++ err)))
      | .ok rec =>
        match UnitCount.new rec.count with
        | .error err =>
          (obj, .returned (.failed ("cluster: bad unit-count in __cluster/init: " ++ err)))
        | .ok count => (obj, .returned (.joined rec.gen count))
  | .bootPut unitCount =>
    match obj.putIfAbsent (Marker.mk 0 unitCount).encode with
    | some obj => (obj, .returned (.founded unitCount))
    | none => (obj, .bootGet unitCount)
  | .advanceGet newGen newCount =>
    match obj.get vs with
    | none => (obj, .returned .nil)
    | some (data, version) =>
      match decodeClusterInit data with
      | .error err =>
        (obj, .returned
          (.failed ("cluster: corrupt __cluster/init marker on advance: " ++ err)))
      | .ok rec =>
        if newGen ≤ rec.gen then (obj, .returned .nil)
        else (obj, .advanceSet newGen newCount version)
  | .advanceSet newGen newCount version =>
    match obj.compareAndSet vs (Marker.mk newGen newCount).encode version with
    | some obj => (obj, .returned .nil)
    | none => (obj, .advanceGet newGen newCount)
  | .returned result => (obj, .returned result)

def Phase.doing : Phase Version → String
  | .bootGet _ => "cluster: read __cluster/init: "
  | .bootPut _ => "cluster: found __cluster/init: "
  | .advanceGet .. => "cluster: read __cluster/init for advance: "
  | .advanceSet .. => "cluster: advance __cluster/init: "
  | .returned _ => ""

def Phase.isReturned : Phase Version → Bool
  | .returned _ => true
  | _ => false

def Phase.isFounded : Phase Version → Bool
  | .returned (.founded _) => true
  | _ => false

def protocol (vs : Versions ClusterInitRecord Version) :
    Protocol (CondObject ClusterInitRecord) Op (Phase Version) where
  start := Op.start
  access := access vs
  fail := fun phase => .returned (.failed phase.doing)
  returned := Phase.isReturned

abbrev Cluster (Version : Type) := Calls (CondObject ClusterInitRecord) Op (Phase Version)

/-- No marker, and no call made. -/
def initial : Cluster Version := Protocol.initial CondObject.empty

section Access

variable {vs : Versions ClusterInitRecord Version} {obj : CondObject ClusterInitRecord}
  {op : Op} {phase : Phase Version} {data : ClusterInitRecord}

def Op.Answers : Op → Result → Prop
  | .bootstrap unitCount, .founded count => count = unitCount
  | .bootstrap _, .joined .. | .bootstrap _, .failed _ => True
  | .advance .., .nil | .advance .., .failed _ => True
  | .bootstrap _, .nil | .advance .., .founded _ | .advance .., .joined .. => False

/-- What is known of a call: its arguments are those it was made with, and it replaces only a
record of a lower generation. -/
def Phase.Owned (vs : Versions ClusterInitRecord Version) (obj : CondObject ClusterInitRecord)
    (op : Op) : Phase Version → Prop
  | .bootGet unitCount | .bootPut unitCount => op = .bootstrap unitCount
  | .advanceGet newGen newCount => op = .advance newGen newCount
  | .advanceSet newGen newCount version =>
    op = .advance newGen newCount ∧ ∃ rec, rec.gen < newGen ∧ obj.Wrote vs rec version
  | .returned result => op.Answers result

omit [DecidableEq Version] in
theorem Phase.Owned.write (owned : phase.Owned vs obj op) (data : ClusterInitRecord) :
    phase.Owned vs (obj.write data) op := by
  cases phase with
  | advanceSet newGen newCount version =>
    obtain ⟨same, rec, below, wrote⟩ := owned
    exact ⟨same, rec, below, wrote.write data⟩
  | _ => exact owned

omit [DecidableEq Version] in
theorem eq_of_decodeClusterInit {rec : ClusterInitRecord}
    (decoded : decodeClusterInit data = .ok rec) : data = rec := by
  unfold decodeClusterInit at decoded
  split at decoded
  · cases decoded
  · exact Except.ok.inj decoded

theorem access_cases (owned : phase.Owned vs obj op) (going : phase.isReturned = false) :
    (access vs obj phase).2.Owned vs (access vs obj phase).1 op ∧
      ((access vs obj phase).1 = obj ∧ (access vs obj phase).2.isFounded = false ∨
        (access vs obj phase).1 = obj.write op.proposal.encode ∧
          (access vs obj phase).2.isFounded = obj.current.isNone ∧
          (∀ rec ∈ obj.current, rec.gen < op.proposal.gen) ∧
          ∀ cur, obj.current = cur.map Marker.encode →
            atomic.step op cur = some (some op.proposal)) := by
  cases phase with
  | bootGet unitCount =>
    obtain rfl := owned
    simp only [access]
    split
    · exact ⟨rfl, .inl ⟨rfl, rfl⟩⟩
    · split
      · exact ⟨trivial, .inl ⟨rfl, rfl⟩⟩
      · split <;> exact ⟨trivial, .inl ⟨rfl, rfl⟩⟩
  | bootPut unitCount =>
    obtain rfl := owned
    simp only [access]
    split
    case h_1 written put =>
      obtain ⟨absent, rfl⟩ := CondObject.of_putIfAbsent put
      refine ⟨rfl, .inr ⟨rfl, by rw [absent]; rfl, by simp [absent], fun cur held => ?_⟩⟩
      obtain rfl := Option.map_eq_none_iff.mp (held.symm.trans absent)
      rfl
    case h_2 => exact ⟨rfl, .inl ⟨rfl, rfl⟩⟩
  | advanceGet newGen newCount =>
    obtain rfl := owned
    simp only [access]
    split
    · exact ⟨trivial, .inl ⟨rfl, rfl⟩⟩
    case h_2 data version read =>
      split
      · exact ⟨trivial, .inl ⟨rfl, rfl⟩⟩
      case h_2 rec decoded =>
        split
        · exact ⟨trivial, .inl ⟨rfl, rfl⟩⟩
        case isFalse behind =>
          obtain rfl := eq_of_decodeClusterInit decoded
          exact ⟨⟨rfl, data, Nat.lt_of_not_le behind, (CondObject.of_get read).2⟩, .inl ⟨rfl, rfl⟩⟩
  | advanceSet newGen newCount version =>
    obtain ⟨rfl, rec, below, wrote⟩ := owned
    simp only [access]
    split
    case h_1 written set =>
      obtain ⟨held, rfl⟩ := CondObject.of_compareAndSet wrote set
      refine ⟨trivial, .inr ⟨rfl, by rw [held]; rfl, by simpa [held, Op.proposal] using below,
        fun cur same => ?_⟩⟩
      obtain ⟨m, rfl, rfl⟩ := Option.map_eq_some_iff.mp (same.symm.trans held)
      exact if_pos below
    case h_2 => exact ⟨rfl, .inl ⟨rfl, rfl⟩⟩
  | returned result => cases going

theorem current_of_joined {gen : Nat} {count : UnitCount} (going : phase.isReturned = false)
    (returned : (access vs obj phase).2 = .returned (.joined gen count)) :
    obj.current = some ⟨gen, count.n⟩ := by
  cases phase with
  | bootGet unitCount =>
    simp only [access] at returned
    split at returned
    · cases returned
    case h_2 data version read =>
      split at returned
      · cases returned
      case h_2 rec decoded =>
        split at returned
        · cases returned
        case h_2 valid made =>
          obtain ⟨rfl, rfl⟩ := Result.joined.inj (Phase.returned.inj returned)
          obtain rfl := eq_of_decodeClusterInit decoded
          have same := UnitCount.n_of_new made
          rw [(CondObject.of_get read).1, show valid.n = data.count by omega]
  | bootPut unitCount | advanceSet newGen newCount version =>
    simp only [access] at returned
    split at returned <;> cases returned
  | advanceGet newGen newCount =>
    simp only [access] at returned
    split at returned
    · cases returned
    · split at returned
      · cases returned
      · split at returned <;> cases returned
  | returned result => cases going

theorem current_of_nil {newGen : Nat} {newCount : UnitCount}
    (owned : phase.Owned vs obj (.advance newGen newCount)) (going : phase.isReturned = false)
    (returned : (access vs obj phase).2 = .returned .nil) :
    obj.current = none ∨ ∃ rec, (access vs obj phase).1.current = some rec ∧ newGen ≤ rec.gen := by
  cases phase with
  | bootGet unitCount => cases owned
  | bootPut unitCount => cases owned
  | advanceGet gen count =>
    obtain ⟨rfl, rfl⟩ := Op.advance.inj owned
    simp only [access] at returned ⊢
    split at returned
    case h_1 missing => exact .inl (Option.map_eq_none_iff.mp missing)
    case h_2 data version read =>
      split at returned
      · cases returned
      case h_2 rec decoded =>
        split at returned
        case isTrue reached =>
          obtain rfl := eq_of_decodeClusterInit decoded
          simp only [reached, ↓reduceIte]
          exact .inr ⟨data, (CondObject.of_get read).1, reached⟩
        case isFalse => cases returned
  | advanceSet gen count version =>
    obtain ⟨same, rec, below, wrote⟩ := owned
    obtain ⟨rfl, rfl⟩ := Op.advance.inj same
    simp only [access] at returned ⊢
    split at returned
    case h_1 written set =>
      obtain ⟨-, rfl⟩ := CondObject.of_compareAndSet wrote set
      exact .inr ⟨(Marker.mk newGen newCount).encode, CondObject.current_write _ _, le_rfl⟩
    case h_2 => cases returned
  | returned result => cases going

end Access

section Runs

variable {vs : Versions ClusterInitRecord Version} {s later : Cluster Version} {i : Nat}

def Ordered (obj : CondObject ClusterInitRecord) : Prop :=
  obj.stored.Pairwise fun earlier later => earlier.gen ≤ later.gen

variable {obj : CondObject ClusterInitRecord}

theorem Ordered.le_of_current (ordered : Ordered obj) {rec last : ClusterInitRecord}
    (stored : rec ∈ obj.stored) (held : obj.current = some last) :
    rec.gen ≤ last.gen := by
  obtain ⟨front, split⟩ := List.getLast?_eq_some_iff.mp held
  rw [Ordered, split] at ordered
  rw [split] at stored
  rcases mem_append.mp stored with earlier | same
  · exact (pairwise_append.mp ordered).2.2 rec earlier last (mem_singleton_self _)
  · rw [mem_singleton.mp same]

theorem Ordered.write {data : ClusterInitRecord} (ordered : Ordered obj)
    (above : ∀ rec ∈ obj.current, rec.gen < data.gen) :
    Ordered (obj.write data) := by
  refine pairwise_append.mpr
    ⟨ordered, pairwise_singleton .., fun rec stored new last => ?_⟩
  obtain rfl := mem_singleton.mp last
  obtain ⟨held, present⟩ := Option.isSome_iff_exists.mp
    (List.getLast?_isSome.mpr (ne_nil_of_mem stored))
  exact (ordered.le_of_current stored present).trans (above held present).le

section

variable (reached : (protocol vs).machine.Reaches Machine.anyAction initial s)
include reached

theorem owned_of_reaches :
    Ordered s.object ∧ ∀ call ∈ s.calls, call.phase.Owned vs s.object call.op := by
  refine Protocol.invariant Ordered (fun obj op phase => phase.Owned vs obj op) reached
    List.Pairwise.nil (fun _ op => by cases op <;> rfl) ?_ ?_
  · intro obj op phase owned
    cases op <;> trivial
  · intro obj op phase ordered owned going
    obtain ⟨moved, ⟨same, -⟩ | ⟨written, -, above, -⟩⟩ := access_cases owned going
    · simp only [protocol] at *
      rw [same] at moved ⊢
      exact ⟨ordered, moved, id⟩
    · simp only [protocol] at *
      rw [written] at moved ⊢
      exact ⟨ordered.write above, moved, fun other => other.write _⟩

theorem countP_founded :
    s.calls.countP (fun call => call.phase.isFounded) =
      if s.object.current.isNone then 0 else 1 := by
  refine Protocol.countP_eq Ordered (fun obj op phase => phase.Owned vs obj op) reached
    owned_of_reaches (fun _ => True) (fun call => call.phase.isFounded)
    (fun obj => if obj.current.isNone then 0 else 1) trivial rfl ?_ ?_ (fun _ _ => rfl) ?_
  · rintro ⟨op, phase⟩ going
    cases phase <;> first | rfl | cases going
  · intro op
    cases op <;> rfl
  · intro obj op phase _ owned going _
    refine ⟨trivial, ?_⟩
    obtain ⟨-, ⟨same, quiet⟩ | ⟨written, founds, -⟩⟩ := access_cases owned going
    · simp [protocol, same, quiet]
    · cases present : obj.current <;> simp [protocol, written, founds, present]

theorem mem_proposals :
    ∀ rec ∈ s.object.stored, rec ∈ (s.calls.map Call.op).map fun op => op.proposal.encode := by
  induction reached with
  | refl => simp [initial, Protocol.initial, CondObject.empty]
  | tail before _ stepped ih =>
    have owned := (owned_of_reaches before).2
    rcases Protocol.step_cases stepped with ⟨op, -, rfl⟩ | ⟨i, call, -, found, going, rfl⟩ |
      ⟨i, call, -, found, going, rfl⟩
    · intro rec stored
      simp only [map_append, mem_append]
      exact .inl (ih rec stored)
    · simp only [Calls.setPhase, Calls.map_op_set found]
      have member := mem_of_getElem? found
      obtain ⟨-, ⟨same, -⟩ | ⟨written, -, -⟩⟩ := access_cases (owned call member) going
      · simpa [protocol, same] using ih
      · intro rec stored
        simp only [protocol, written, CondObject.write] at stored
        rcases mem_append.mp stored with old | new
        · exact ih rec old
        · rw [mem_singleton.mp new]
          exact mem_map.mpr ⟨call.op, mem_map_of_mem member, rfl⟩
    · simpa only [Calls.setPhase, Calls.map_op_set found] using ih

theorem exists_atomic_reaches :
    ∃ cur, atomic.Reaches Machine.anyAction none cur ∧
      s.object.current = cur.map Marker.encode := by
  refine Protocol.simulates Ordered (fun obj op phase => phase.Owned vs obj op) reached
    owned_of_reaches atomic (fun obj cur => obj.current = cur.map Marker.encode) none rfl ?_
  intro obj op phase cur _ owned going held
  obtain ⟨-, ⟨same, -⟩ | ⟨written, -, -, step⟩⟩ := access_cases owned going
  · exact .inl (by simp [protocol, same, held])
  · exact .inr ⟨op, some op.proposal, step cur held, by simp [protocol, written]⟩

section

variable (onward : (protocol vs).machine.Reaches Machine.anyAction s later)
include onward

theorem stored_mono :
    s.object.stored <+: later.object.stored := by
  induction onward with
  | refl => exact prefix_rfl
  | tail before _ stepped ih =>
    have owned := (owned_of_reaches (reached.trans before)).2
    refine ih.trans ?_
    rcases Protocol.step_cases stepped with ⟨op, -, rfl⟩ | ⟨i, call, -, found, going, rfl⟩ |
      ⟨i, call, -, found, going, rfl⟩
    · exact prefix_rfl
    · obtain ⟨-, ⟨same, -⟩ | ⟨written, -, -⟩⟩ :=
        access_cases (owned call (mem_of_getElem? found)) going
      · simp [Calls.setPhase, protocol, same]
      · simp [Calls.setPhase, protocol, written, CondObject.write]
    · exact prefix_rfl

theorem gen_le_of_reaches {rec : ClusterInitRecord} (held : s.object.current = some rec) :
    ∃ last, later.object.current = some last ∧ rec.gen ≤ last.gen := by
  have kept := (stored_mono reached onward).subset (mem_of_getLast? held)
  obtain ⟨last, present⟩ :=
    Option.isSome_iff_exists.mp (List.getLast?_isSome.mpr (ne_nil_of_mem kept))
  exact ⟨last, present, (owned_of_reaches (reached.trans onward)).1.le_of_current kept present⟩

end

end

/-- At most one bootstrap has founded the cluster, and every other one that succeeded has returned
what the marker held during its call; the stored generations never decrease, each has been
proposed, and the marker stays at or beyond an advance that has returned. -/
theorem marker_locks_and_resumes (vs : Versions ClusterInitRecord Version)
    (reached : (protocol vs).machine.Reaches Machine.anyAction initial s) :
    s.calls.countP (fun call => call.phase.isFounded) ≤ 1 ∧
      (∀ i unitCount result, s.calls[i]? = some ⟨.bootstrap unitCount, .returned result⟩ →
        result = .founded unitCount ∨ (∃ message, result = .failed message) ∨
          ∃ gen count before after, result = .joined gen count ∧
            (protocol vs).Returns Machine.anyAction CondObject.empty i
              ⟨.bootstrap unitCount, .returned result⟩ before after s ∧
            before.object.current = some ⟨gen, count.n⟩) ∧
      s.object.stored.Pairwise (fun earlier later => earlier.gen ≤ later.gen) ∧
      (∀ rec ∈ s.object.stored, ∃ call ∈ s.calls, call.op.proposal.encode = rec) ∧
      ∀ i newGen newCount, s.calls[i]? = some ⟨.advance newGen newCount, .returned .nil⟩ →
        ∃ before after, (protocol vs).Returns Machine.anyAction CondObject.empty i
            ⟨.advance newGen newCount, .returned .nil⟩ before after s ∧
          (before.object.current = none ∨
            ∃ rec, s.object.current = some rec ∧ newGen ≤ rec.gen) := by
  have starts : ∀ op, (protocol vs).returned ((protocol vs).start op) = false := by
    intro op
    cases op <;> rfl
  obtain ⟨ordered, owned⟩ := owned_of_reaches reached
  refine ⟨?_, ?_, ordered, ?_, ?_⟩
  · rw [countP_founded reached]
    split <;> simp
  · intro i unitCount result found
    have answers := owned _ (mem_of_getElem? found)
    cases result with
    | founded count => exact .inl (congrArg _ answers)
    | failed message => exact .inr (.inl ⟨message, rfl⟩)
    | nil => cases answers
    | joined gen count =>
      obtain ⟨before, after, returns⟩ := Protocol.exists_returns reached starts found rfl
      refine .inr (.inr ⟨gen, count, before, after, rfl, returns, ?_⟩)
      obtain ⟨phase, present, going, ⟨-, answered⟩ | ⟨-, failed⟩⟩ := returns.going
      · exact current_of_joined going answered.symm
      · cases failed
  · intro rec stored
    obtain ⟨op, made, proposed⟩ := mem_map.mp (mem_proposals reached rec stored)
    obtain ⟨call, member, rfl⟩ := mem_map.mp made
    exact ⟨call, member, proposed⟩
  · intro i newGen newCount found
    obtain ⟨before, after, returns⟩ := Protocol.exists_returns reached starts found rfl
    refine ⟨before, after, returns, ?_⟩
    obtain ⟨phase, present, going, ⟨accessed, answered⟩ | ⟨-, failed⟩⟩ := returns.going
    · have own := (owned_of_reaches returns.reached).2 _ (mem_of_getElem? present)
      rcases current_of_nil own going answered.symm with absent | ⟨rec, held, atLeast⟩
      · exact .inl absent
      · obtain ⟨action, permitted, stepped⟩ := returns.stepped
        obtain ⟨last, current, grown⟩ := gen_le_of_reaches
          (returns.reached.tail permitted stepped) returns.later
          ((congrArg CondObject.current accessed).trans held)
        exact .inr ⟨last, current, atLeast.trans grown⟩
    · cases failed

end Runs

/-- Two nodes with different unit counts contend for a fresh cluster, and two advances plan from
the same record. -/
def racingRun : List (CallAction Op) :=
  [.call (.bootstrap .one), .call (.bootstrap .two), .access 0, .access 1, .access 0, .access 1,
    .access 1, .call (.advance 1 .two), .call (.advance 2 .one), .access 2, .access 3, .access 2,
    .access 3, .access 3, .access 3]

theorem racing_bootstrap_joins :
    let s := (protocol (Versions.content ClusterInitRecord)).machine.endOf Machine.anyAction
      racingRun initial
    s.calls.countP (fun call => call.phase.isFounded) ≤ 1 ∧
      s.calls[1]? = some ⟨.bootstrap .two, .returned (.joined 0 .one)⟩ ∧
      s.object.stored.Pairwise (fun earlier later => earlier.gen ≤ later.gen) ∧
      s.object.stored = [⟨0, 1⟩, ⟨1, 2⟩, ⟨2, 1⟩] := by
  have reached : (protocol (Versions.content ClusterInitRecord)).machine.Reaches
      Machine.anyAction initial _ := Machine.reaches_endOf _ _ racingRun _ (by decide)
  have holds := marker_locks_and_resumes _ reached
  exact ⟨holds.1, by decide, holds.2.2.1, by decide⟩

end Shale.InitMarker
