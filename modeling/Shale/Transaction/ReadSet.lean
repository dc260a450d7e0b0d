import Shale.Transaction.Validation

/-!
# What a transaction has seen and what its commit validates

A transaction as its closure drives it: `Get`, `Put` and `Delete` calls in any order, each
in the routing state of the client's node at that time, with whatever answers the cluster
gives to the calls that go there. `recordRead` keeps the first observation of a key, while
every later `Get` of the key returns what the cluster answers then, so that the read-set
covers what the closure saw exactly when the cluster repeats its first answer.
-/

namespace Shale

open Position List Machine

inductive TxCall where
  | get (key : Bytes) (routed : Option Bytes)
  | getFails (key : Bytes)
  | write (key : Bytes) (value : Option Bytes)
deriving DecidableEq

/-- What a `Get` has returned, and whether it came from the transaction's own buffer. -/
structure Answer where
  key : Bytes
  value : Option Bytes
  buffered : Bool
deriving DecidableEq

/-- A transaction with the answers its closure has seen. -/
structure Session where
  tx : ClusterTx
  answers : List Answer

namespace ClusterTx

variable {sharding : Sharding} {gs : GenState} {tx after : ClusterTx} {key : Bytes}

def buffers (tx : ClusterTx) (key : Bytes) : Bool := tx.writeBuf.any fun op => op.key == key

theorem of_write {value : Option Bytes} (written : tx.write sharding gs key value = .ok after) :
    after.pin ≠ none ∧ after.reads = tx.reads := by
  unfold write at written
  split at written
  · cases written
  case h_2 pinned admitted =>
    cases written
    obtain ⟨pin, rfl, -⟩ := of_guardShard admitted
    unfold bufferWrite
    split <;> exact ⟨Option.some_ne_none pin, rfl⟩

theorem of_get {routed answer : Option Bytes}
    (answered : tx.get sharding gs key routed = .ok (after, answer)) :
    after.pin ≠ none ∧
      (tx.buffers key = true ∧ after.reads = tx.reads ∨
        tx.buffers key = false ∧ answer = routed ∧
          after.reads = (tx.recordRead key routed).reads) := by
  unfold get at answered
  split at answered
  · cases answered
  case h_2 pinned admitted =>
    obtain ⟨pin, rfl, -⟩ := of_guardShard admitted
    split at answered
    case h_1 op found =>
      cases Except.ok.inj answered
      have named := List.find?_some found
      refine ⟨Option.some_ne_none pin, .inl ⟨?_, rfl⟩⟩
      exact any_eq_true.mpr ⟨op, mem_of_find?_eq_some found, named⟩
    case h_2 missing =>
      cases Except.ok.inj answered
      refine ⟨?_, .inr ⟨by simpa [buffers] using missing, rfl, ?_⟩⟩ <;> unfold recordRead
      · split <;> exact Option.some_ne_none pin
      · split <;> rfl

def ReadsOnce (tx : ClusterTx) : Prop := (tx.reads.map ReadCheck.key).Nodup

theorem recordRead_cases (tx : ClusterTx) (key : Bytes) (value : Option Bytes) :
    (∃ check ∈ tx.reads, check.key = key) ∧ (tx.recordRead key value).reads = tx.reads ∨
      (∀ check ∈ tx.reads, check.key ≠ key) ∧
        (tx.recordRead key value).reads = tx.reads ++ [⟨key, value⟩] := by
  unfold recordRead
  split
  case isTrue seen => exact .inl ⟨by simpa using seen, rfl⟩
  case isFalse fresh => exact .inr ⟨by simpa using fresh, rfl⟩

theorem key_mem_recordRead (tx : ClusterTx) (key : Bytes) (value : Option Bytes) :
    ∃ check ∈ (tx.recordRead key value).reads, check.key = key := by
  rcases tx.recordRead_cases key value with ⟨seen, reads⟩ | ⟨-, reads⟩
  · rwa [reads]
  · exact ⟨⟨key, value⟩, by simp [reads], rfl⟩

theorem ReadsOnce.recordRead (once : tx.ReadsOnce) (key : Bytes) (value : Option Bytes) :
    (tx.recordRead key value).ReadsOnce := by
  rcases tx.recordRead_cases key value with ⟨-, reads⟩ | ⟨fresh, reads⟩
  · rwa [ReadsOnce, reads]
  · rw [ReadsOnce, reads, map_append, map_singleton]
    exact List.Nodup.append once (nodup_singleton key) (by simpa using fresh)

end ClusterTx

namespace Session

variable (sharding : Sharding)

def new : Session := ⟨.new, []⟩

def call (s : Session) (gs : GenState) : TxCall → Session
  | .get key routed =>
    match s.tx.get sharding gs key routed with
    | .error _ => s
    | .ok (tx, value) => ⟨tx, s.answers ++ [⟨key, value, s.tx.buffers key⟩]⟩
  | .getFails key =>
    match s.tx.guardShard sharding gs key with
    | .error _ => s
    | .ok tx => ⟨tx, s.answers⟩
  | .write key value =>
    match s.tx.write sharding gs key value with
    | .error _ => s
    | .ok tx => ⟨tx, s.answers⟩

def calls (s : Session) : List (GenState × TxCall) → Session
  | [] => s
  | (gs, call) :: rest => (s.call sharding gs call).calls rest

def repeatsAnswer (s : Session) (gs : GenState) : TxCall → Bool
  | .get key routed =>
    match s.tx.guardShard sharding gs key with
    | .error _ => true
    | .ok _ => s.tx.buffers key ||
        s.tx.reads.all fun check => check.key != key || check.expected == routed
  | _ => true

def repeatsAnswers (s : Session) : List (GenState × TxCall) → Bool
  | [] => true
  | (gs, call) :: rest =>
    s.repeatsAnswer sharding gs call && (s.call sharding gs call).repeatsAnswers rest

def Covered (s : Session) (checks : List ReadCheck) : Prop :=
  ∀ answer ∈ s.answers, answer.buffered = false → ⟨answer.key, answer.value⟩ ∈ checks

instance (s : Session) (checks : List ReadCheck) : Decidable (s.Covered checks) :=
  inferInstanceAs (Decidable (∀ answer ∈ s.answers, _))

variable {sharding} {s : Session}

theorem call_cases (sharding : Sharding) (s : Session) (gs : GenState) (call : TxCall) :
    ((s.call sharding gs call).tx.reads = s.tx.reads ∧
        ((s.call sharding gs call).tx.pin = none → s.tx.pin = none) ∧
        (∃ rest : List Answer, (∀ answer ∈ rest, answer.buffered = true) ∧
          (s.call sharding gs call).answers = s.answers ++ rest) ∧
        s.repeatsAnswer sharding gs call = true) ∨
      ∃ key routed, (s.call sharding gs call).tx.pin ≠ none ∧
        (s.call sharding gs call).tx.reads = (s.tx.recordRead key routed).reads ∧
        (s.call sharding gs call).answers = s.answers ++ [⟨key, routed, false⟩] ∧
        (s.repeatsAnswer sharding gs call = true ↔
          ∀ check ∈ s.tx.reads, check.key = key → check.expected = routed) := by
  cases call with
  | get key routed =>
    cases admitted : s.tx.guardShard sharding gs key with
    | error refusal =>
      have refused : s.tx.get sharding gs key routed = .error refusal := by
        rw [ClusterTx.get, admitted]
      simp [Session.call, repeatsAnswer, refused, admitted]
    | ok pinned =>
      obtain ⟨⟨tx, value⟩, answered⟩ :
          ∃ result, s.tx.get sharding gs key routed = .ok result := by
        rw [ClusterTx.get, admitted]
        dsimp only
        split <;> exact ⟨_, rfl⟩
      obtain ⟨pin, ⟨buffers, reads⟩ | ⟨misses, rfl, reads⟩⟩ := ClusterTx.of_get answered
      · simp [Session.call, repeatsAnswer, answered, admitted, buffers, reads, pin]
      · refine .inr ⟨key, value, ?_, ?_, ?_, ?_⟩
        · rwa [Session.call, answered]
        · rw [Session.call, answered, reads]
        · rw [Session.call, answered, misses]
        · simp only [repeatsAnswer, admitted, misses, Bool.false_or, all_eq_true,
            Bool.or_eq_true, bne_iff_ne, beq_iff_eq, ne_eq]
          exact forall₂_congr fun check _ => imp_iff_not_or.symm
  | getFails key =>
    cases admitted : s.tx.guardShard sharding gs key with
    | error refusal => simp [Session.call, repeatsAnswer, admitted]
    | ok pinned =>
      obtain ⟨pin, rfl, -⟩ := ClusterTx.of_guardShard admitted
      simp [Session.call, repeatsAnswer, admitted]
  | write key value =>
    cases written : s.tx.write sharding gs key value with
    | error refusal => simp [Session.call, repeatsAnswer, written]
    | ok tx =>
      obtain ⟨pin, reads⟩ := ClusterTx.of_write written
      simp [Session.call, repeatsAnswer, written, pin, reads]

structure Inv (s : Session) : Prop where
  once : s.tx.ReadsOnce
  seen : ∀ answer ∈ s.answers, answer.buffered = false →
    ∃ check ∈ s.tx.reads, check.key = answer.key
  pinned : s.tx.pin = none → s.tx.reads = []

theorem new_inv : Inv new where
  once := nodup_nil
  seen := fun _ member => by cases member
  pinned := fun _ => rfl

theorem Inv.call (inv : Inv s) (gs : GenState) (call : TxCall) : Inv (s.call sharding gs call) := by
  rcases call_cases sharding s gs call with
    ⟨reads, unpinned, ⟨rest, buffered, answers⟩, -⟩ | ⟨key, routed, pin, reads, answers, -⟩
  · constructor
    · rw [ClusterTx.ReadsOnce, reads]
      exact inv.once
    · intro answer mem unbuffered
      rw [answers, mem_append] at mem
      rw [reads]
      refine inv.seen answer (mem.resolve_right fun new => ?_) unbuffered
      rw [buffered answer new] at unbuffered
      cases unbuffered
    · intro none_
      rw [reads]
      exact inv.pinned (unpinned none_)
  · constructor
    · rw [ClusterTx.ReadsOnce, reads]
      exact inv.once.recordRead key routed
    · intro answer mem unbuffered
      rw [answers, mem_append] at mem
      rw [reads]
      rcases mem with old | new
      · obtain ⟨check, recorded, same⟩ := inv.seen answer old unbuffered
        refine ⟨check, ?_, same⟩
        rcases s.tx.recordRead_cases key routed with ⟨-, now⟩ | ⟨-, now⟩ <;> simp [now, recorded]
      · obtain rfl := mem_singleton.mp new
        exact s.tx.key_mem_recordRead key routed
    · exact fun none_ => absurd none_ pin

theorem Inv.covered_call (inv : Inv s) (gs : GenState) (call : TxCall) :
    (s.call sharding gs call).Covered (s.call sharding gs call).tx.reads ↔
      s.Covered s.tx.reads ∧ s.repeatsAnswer sharding gs call = true := by
  rcases call_cases sharding s gs call with
    ⟨reads, -, ⟨rest, buffered, answers⟩, repeats⟩ | ⟨key, routed, -, reads, answers, repeats⟩
  · simp only [Covered, reads, answers, repeats, and_true, mem_append]
    constructor
    · exact fun covered answer member => covered answer (.inl member)
    · intro covered answer member unbuffered
      refine covered answer (member.resolve_right fun new => ?_) unbuffered
      rw [buffered answer new] at unbuffered
      cases unbuffered
  · have split_last : (s.call sharding gs call).Covered (s.call sharding gs call).tx.reads ↔
        s.Covered (s.tx.recordRead key routed).reads ∧
          ⟨key, routed⟩ ∈ (s.tx.recordRead key routed).reads := by
      simp only [Covered, reads, answers, mem_append, mem_singleton]
      constructor
      · exact fun covered => ⟨fun answer member => covered answer (.inl member),
          covered ⟨key, routed, false⟩ (.inr rfl) rfl⟩
      · rintro ⟨covered, last⟩ answer (old | rfl) unbuffered
        · exact covered answer old unbuffered
        · exact last
    rw [split_last, repeats]
    rcases s.tx.recordRead_cases key routed with ⟨⟨check, member, rfl⟩, same⟩ | ⟨fresh, appended⟩
    · -- the key has been observed before: the answer has to be that observation
      rw [same]
      refine and_congr_right fun _ => ⟨fun last other mem named => ?_, fun agrees => ?_⟩
      · exact congrArg ReadCheck.expected (inj_on_of_nodup_map inv.once mem last named)
      · rwa [← agrees check member rfl]
    · rw [appended]
      constructor
      · rintro ⟨covered, -⟩
        refine ⟨fun answer member unbuffered => ?_, fun check member named =>
          absurd named (fresh check member)⟩
        obtain ⟨check, recorded, same⟩ := inv.seen answer member unbuffered
        rcases mem_append.mp (covered answer member unbuffered) with old | new
        · exact old
        · have named := congrArg ReadCheck.key (mem_singleton.mp new)
          exact absurd (same.trans named) (fresh check recorded)
      · rintro ⟨covered, -⟩
        exact ⟨fun answer member unbuffered =>
          mem_append_left _ (covered answer member unbuffered), by simp⟩

theorem Inv.covered_calls (inv : Inv s) (calls : List (GenState × TxCall)) :
    (s.calls sharding calls).Covered (s.calls sharding calls).tx.reads ↔
      s.Covered s.tx.reads ∧ s.repeatsAnswers sharding calls = true := by
  induction calls generalizing s with
  | nil => simp [Session.calls, repeatsAnswers]
  | cons head rest ih =>
    obtain ⟨gs, call⟩ := head
    rw [Session.calls, repeatsAnswers, ih (inv.call gs call), inv.covered_call gs call,
      Bool.and_eq_true, and_assoc]

theorem Inv.calls (inv : Inv s) (calls : List (GenState × TxCall)) :
    Inv (s.calls sharding calls) := by
  induction calls generalizing s with
  | nil => exact inv
  | cons head rest ih => exact ih (inv.call head.1 head.2)

end Session

inductive CommitNil {Value : Type} (layout : Position.Layout Value) (node : Nat) (tx : ClusterTx) :
    List ReadCheck → Prop where
  | empty (nothing : tx.ships = none) : CommitNil layout node tx []
  | reported {pinKey : Bytes} {call : Position.CasCall} {db : Store Value} {clock : Nat}
      {s s' : Position.State Value} {action : Position.Action Value} {stamp : Stamp}
      {owner : Position.CasTx Value}
      (shipped : tx.ships = some (pinKey, call.reads, call.writes))
      (reached : (machine layout node).Reaches anyAction
        (initial db clock) s)
      (stepped : step layout node action s = some s')
      (finished : s'.finished = s.finished ++ [(call, .committed stamp)])
      (holder : s.committing = some owner) :
      CommitNil layout node tx (owner.validated.map Prod.fst)

variable {Value : Type} {node : Nat} {tx : ClusterTx}

variable {layout : Position.Layout Value}

theorem CommitNil.of_reported {pinKey : Bytes} {call : Position.CasCall} {db : Store Value}
    {clock : Nat} {s s' : Position.State Value} {action : Position.Action Value} {stamp : Stamp}
    (shipped : tx.ships = some (pinKey, call.reads, call.writes))
    (reached :
      (machine layout node).Reaches anyAction (initial db clock) s)
    (stepped : step layout node action s = some s')
    (finished : s'.finished = s.finished ++ [(call, .committed stamp)]) :
    ∃ checks, CommitNil layout node tx checks := by
  obtain ⟨owner, holder, -⟩ := commit_of_reported stepped finished
  exact ⟨_, .reported shipped reached stepped finished holder⟩

theorem CommitNil.checks_eq {checks : List ReadCheck} (committed : CommitNil layout node tx checks)
    (pinned : tx.pin = none → tx.reads = []) :
    checks = tx.reads := by
  cases committed with
  | empty nothing =>
    unfold ClusterTx.ships at nothing
    split at nothing
    case h_1 unpinned => exact (pinned unpinned).symm
    case h_2 =>
      split at nothing
      case isTrue none_ => exact none_.2.symm
      case isFalse => cases nothing
  | reported shipped reached stepped finished holder =>
    obtain ⟨tx', holder', rfl, last, -⟩ := commit_of_reported stepped finished
    cases holder.symm.trans holder'
    have sound := (Position.Inv.of_reaches reached).commit holder
    rw [(sound.at_commit last).1]
    unfold ClusterTx.ships at shipped
    split at shipped
    · cases shipped
    · split at shipped
      · cases shipped
      · obtain ⟨-, reads, -⟩ := by simpa using shipped
        exact reads.symm

/-- **A committed transaction has validated what it saw** exactly if each `Get` of a key that had
been read from the cluster was answered there as the first one. -/
theorem answers_validated_iff {Value : Type} {layout : Position.Layout Value} {node : Nat}
    {sharding : Sharding} {calls : List (GenState × TxCall)} {checks : List ReadCheck}
    (committed : CommitNil layout node (Session.new.calls sharding calls).tx checks) :
    (Session.new.calls sharding calls).Covered checks ↔
      Session.new.repeatsAnswers sharding calls = true := by
  rw [committed.checks_eq (Session.new_inv.calls calls).pinned,
    Session.new_inv.covered_calls calls]
  exact and_iff_right fun _ member => by cases member

def oneUnit : Sharding := ⟨id, fun _ => 0⟩

/-- A closure that reads a key twice, writes it and reads it again. -/
def rereads (first second : Option Bytes) : List (GenState × TxCall) :=
  [.get [1] first, .get [1] second, .write [1] (some [7]), .get [1] none].map fun call =>
    (.steady 0 .one, call)

def rereadCall : Position.CasCall := ⟨[⟨[1], some [5]⟩], [⟨[1], some [7]⟩]⟩

def commitReread : List (Position.Action Bytes) :=
  [.call rereadCall, .lockCas 0, .stepCas true 0, .stepCas true 0, .stepCas true 0,
    .stepCas true 0, .stepCas true 0, .stepCas true 0]

theorem repeated_answer_validated :
    ∃ checks, CommitNil rawLayout 1
        (Session.new.calls oneUnit (rereads (some [5]) (some [5]))).tx checks ∧
      (Session.new.calls oneUnit (rereads (some [5]) (some [5]))).Covered checks := by
  obtain ⟨s, s', reached, stepped, finished⟩ :=
    (machine rawLayout 1).exists_step_of_run anyAction commitReread
      (.stepCas true 0) (initial (Store.put ∅ [1] [5]) 0)
      (fun s s' => s'.finished = s.finished ++ [(rereadCall, .committed ⟨0, 0⟩)]) (by decide)
  rw [machine_step] at stepped
  have shipped : (Session.new.calls oneUnit (rereads (some [5]) (some [5]))).tx.ships =
      some ([1], rereadCall.reads, rereadCall.writes) := by decide
  obtain ⟨checks, committed⟩ := CommitNil.of_reported shipped reached stepped finished
  exact ⟨checks, committed, (answers_validated_iff committed).mpr (by decide)⟩

def overwritten : Position.State Bytes :=
  { initial (Store.put ∅ [1] [5]) 0 with
    db := (Store.put ∅ [1] [5]).write [1] (some [6])
    foreign := [[1]] }

/-- A key is read, overwritten by another client, read again, and restored. The commit
returns nil, and the owner has validated the first answer only. -/
theorem changed_answer_not_validated :
    (machine rawLayout 1).Reaches anyAction
        (initial (Store.put ∅ [1] [5]) 0) overwritten ∧
      (Store.put ∅ [1] [5]).get [1] = some [5] ∧ overwritten.db.get [1] = some [6] ∧
      ∃ checks, CommitNil rawLayout 1
          (Session.new.calls oneUnit (rereads (some [5]) (some [6]))).tx checks ∧
        ¬ (Session.new.calls oneUnit (rereads (some [5]) (some [6]))).Covered checks := by
  have stepped : (machine rawLayout 1).step (.plain [1] (some [6]))
      (initial (Store.put ∅ [1] [5]) 0) = some overwritten := rfl
  have changed : (machine rawLayout 1).Reaches anyAction
      (initial (Store.put ∅ [1] [5]) 0) overwritten := .tail .refl trivial stepped
  obtain ⟨s, s', reached, stepped, finished⟩ :=
    (machine rawLayout 1).exists_step_of_run anyAction
      (.plain [1] (some [5]) :: commitReread) (.stepCas true 0) overwritten
      (fun s s' => s'.finished = s.finished ++ [(rereadCall, .committed ⟨0, 0⟩)]) (by decide)
  rw [machine_step] at stepped
  have shipped : (Session.new.calls oneUnit (rereads (some [5]) (some [6]))).tx.ships =
      some ([1], rereadCall.reads, rereadCall.writes) := by decide
  obtain ⟨checks, committed⟩ :=
    CommitNil.of_reported shipped (changed.trans reached) stepped finished
  refine ⟨changed, by decide, by decide, checks, committed, ?_⟩
  rw [committed.checks_eq (by decide)]
  decide

end Shale
