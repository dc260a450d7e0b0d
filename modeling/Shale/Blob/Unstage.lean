import Shale.Replication.RegisterOrder

/-!
# Reclaiming staged blobs

`UnstageBlob` deletes the object of a staged blob unless a pointer to it is bound: it reads
the pointer key at a read quorum and takes only a witnessed absence for unbound. The pointer
key is written by transactions alone, `BindBlob` storing a pointer and `UnbindBlob` a
tombstone.

A transaction that returns has its pointer at the owner and at the positions that acked it,
which may be none. The guard is sound where these positions and the legs that answer it are
together more than all positions; and it counts the legs only when none of them has a value,
so that one old tombstone is taken for a witnessed absence.
-/

namespace Shale.Blob

open Register List Machine

structure BlobRef where
  unit : Bytes
  routeShard : Bytes
  blobID : Bytes
deriving DecidableEq

def brefRoot : Bytes := [98, 114, 101, 102, 47]

def brefKey (ref : BlobRef) : Bytes :=
  brefRoot ++ 123 :: ref.routeShard ++ 125 :: 47 :: ref.blobID

def finalKey (unit blobID : Bytes) : Bytes :=
  [98, 108, 111, 98, 47] ++ unit ++ 47 :: blobID

/-- The outcomes of `guardGet` other than a pointer. -/
inductive GuardError where
  | notFound
  | closed
  | read (err : ReadError)
deriving DecidableEq

def guardConsistency (rc : ReadConsistency) : ReadConsistency :=
  if rc = .all then .all else .quorum

def guardGet (notReady : Bool) (rc : ReadConsistency) (stableR : Nat)
    (sweeps : List (List LegAnswer)) : Except GuardError Bytes :=
  if notReady then .error .closed
  else
    match getReplicatedUnit ⟨guardConsistency rc, true⟩ stableR sweeps with
    | .error err => .error (.read err)
    | .ok env => if env.payload = [] then .error .notFound else .ok env.payload

inductive UnstageError (StoreError : Type) where
  | invalidRef (text : String)
  | bound (unit blobID : Bytes)
  | guardRead (unit blobID : Bytes) (err : GuardError)
  | delete (unit blobID : Bytes) (err : StoreError)
deriving DecidableEq

/-- `validateUnstageRef`: what the ref lacks; an embedded closing brace would cut the hash tag
of the pointer key short. -/
def validateUnstageRef (ref : BlobRef) : Option String :=
  if ref.unit = [] then some "shale: unstage: empty Unit"
  else if ref.blobID = [] then some "shale: unstage: empty BlobID"
  else if ref.routeShard = [] then some "shale: unstage: empty RouteShard"
  else if 125 ∈ ref.routeShard then some "shale: unstage: RouteShard contains '\x7d'"
  else none

variable {StoreError : Type}

def unstageBlob (guard : Bytes → Except GuardError Bytes) (delete : Bytes → Option StoreError)
    (ref : BlobRef) : Except (UnstageError StoreError) Unit × List Bytes :=
  match validateUnstageRef ref with
  | some text => (.error (.invalidRef text), [])
  | none =>
    match guard (brefKey ref) with
    | .ok _ => (.error (.bound ref.unit ref.blobID), [])
    | .error .notFound =>
      let key := finalKey ref.unit ref.blobID
      match delete key with
      | some err => (.error (.delete ref.unit ref.blobID err), [key])
      | none => (.ok (), [key])
    | .error err => (.error (.guardRead ref.unit ref.blobID err), [])

theorem guard_of_unstageBlob {guard : Bytes → Except GuardError Bytes}
    {delete : Bytes → Option StoreError} {ref : BlobRef}
    (present : guard (brefKey ref) ≠ .error .notFound) :
    (∃ err, (unstageBlob guard delete ref).1 = .error err) ∧
      (unstageBlob guard delete ref).2 = [] := by
  unfold unstageBlob
  split
  · exact ⟨⟨_, rfl⟩, rfl⟩
  · split
    · exact ⟨⟨_, rfl⟩, rfl⟩
    case h_2 absent => exact absurd absent present
    · exact ⟨⟨_, rfl⟩, rfl⟩

theorem sweep_of_guardGet {notReady : Bool} {rc : ReadConsistency} {stableR : Nat}
    {sweeps : List (List LegAnswer)}
    (absent : guardGet notReady rc stableR sweeps = .error .notFound) :
    ∃ answers ∈ sweeps, ∃ decided, decided.payload = [] ∧
      getReplicatedUnitOnce ⟨guardConsistency rc, true⟩ stableR answers = .ok decided := by
  unfold guardGet at absent
  split at absent
  · cases absent
  · split at absent
    · cases absent
    case h_2 env returned =>
      split at absent
      case isTrue empty =>
        obtain ⟨answers, mem, decides⟩ := exists_sweep_of_getReplicatedUnit returned
        exact ⟨answers, mem, env, empty, decides⟩
      case isFalse => cases absent

/-- The pointer key is written by transactions alone, whose owner is ahead; and one of them
returns only when so many positions have acked it that fewer than `quota` have not. -/
def BindsWidely (c : Config) (quota : Nat) (s : State) (action : Action) : Prop :=
  action.isPut = false ∧ OwnerAhead s action ∧
    match action with
    | .returnCas env => c.r < (s.ackedBy env c.r).length + quota
    | _ => True

instance (c : Config) (quota : Nat) : DecidableRel (BindsWidely c quota) := fun s action =>
  @instDecidableAnd _ _ (inferInstanceAs (Decidable (action.isPut = false))) <|
    @instDecidableAnd _ _ (inferInstanceAs (Decidable (OwnerAhead s action))) <|
      match action with
      | .returnCas env =>
        inferInstanceAs (Decidable (c.r < (s.ackedBy env c.r).length + quota))
      | .put .. | .compare .. | .store _ | .abort _ | .draw .. | .commit | .rollback
      | .returnPut .. | .purge .. | .observe .. => isTrue trivial

variable {c : Config} {quota : Nat} {s s' : State} {action : Action} {B env : Envelope}

structure PointerInv (c : Config) (quota : Nat) (s : State) : Prop extends SerialInv s where
  only : ∀ env ∈ s.issued, env ∈ s.commits
  wide : ∀ env ∈ s.returned, env ∈ s.commits ∧ c.r < (s.ackedBy env c.r).length + quota

theorem PointerInv.initial (clock : Nat → Nat) : PointerInv c quota (initial clock) where
  toSerialInv := .initial clock
  only := fun _ member => by cases member
  wide := fun _ member => by cases member

theorem ackedBy_sublist (grown : Extends s s') (env : Envelope) (live : Nat) :
    (s.ackedBy env live).Sublist (s'.ackedBy env live) := by
  refine monotone_filter_right _ fun pos acked => ?_
  simp only [decide_eq_true_eq] at acked ⊢
  exact grown.acked.subset acked

theorem PointerInv.step (inv : PointerInv c quota s) (allowed : BindsWidely c quota s action)
    (stepped : Register.step c action s = some s') : PointerInv c quota s' := by
  obtain ⟨noPut, ahead, widely⟩ := allowed
  have base : SerialInv s' :=
    inv.toSerialInv.step ahead (fun put => by simp [noPut] at put) stepped
  have grown := extends_of_step stepped
  have kept : ∀ env ∈ s.returned,
      env ∈ s'.commits ∧ c.r < (s'.ackedBy env c.r).length + quota := by
    intro env member
    obtain ⟨committed, wide⟩ := inv.wide env member
    have := (ackedBy_sublist grown env c.r).length_le
    exact ⟨grown.commits.subset committed, by omega⟩
  suffices (∀ env ∈ s'.issued, env ∈ s'.commits) ∧ ∀ env ∈ s'.returned, env ∈ s.returned ∨
      env ∈ s'.commits ∧ c.r < (s'.ackedBy env c.r).length + quota from
    { base with only := this.1, wide := fun env member => (this.2 env member).elim (kept env) id }
  cases effect_of_step c stepped with
  | put => cases noPut
  | commit =>
    refine ⟨fun env member => ?_, fun env member => .inl member⟩
    simp only [mem_append] at member ⊢
    exact member.imp_left (inv.only env)
  | @returnPut env live issued plain => exact absurd (inv.only env issued) plain
  | @returnCas env committed =>
    refine ⟨inv.only, fun other member => ?_⟩
    rcases mem_snoc.mp member with old | rfl
    · exact .inl old
    · exact .inr ⟨committed, widely⟩
  | _ => exact ⟨inv.only, fun env member => .inl member⟩

def StillBound (B : Envelope) (s : State) : Prop :=
  ∀ before after, s.commits = before ++ B :: after → ∀ env ∈ after, env.payload ≠ []

theorem stillBound_of_last {earlier : List Envelope} (last : s.commits = earlier ++ [B])
    (fresh : B ∉ earlier) : StillBound B s := by
  intro before after split env mem
  rw [last, append_cons_inj_of_notMem fresh not_mem_nil] at split
  rw [← split.2.2] at mem
  cases mem

section

variable (still : StillBound B s) (inv : PointerInv c quota s) (bound : B ∈ s.commits)
include still inv bound

theorem StillBound.payload_ne_nil (pointer : B.payload ≠ []) (issued : env ∈ s.issued)
    (le : B.stamp ≤ env.stamp) : env.payload ≠ [] := by
  obtain ⟨before, after, split⟩ := append_of_mem bound
  have member := inv.only env issued
  have serial := inv.serial
  rw [split, mem_append, mem_cons] at member
  rw [split, pairwise_append] at serial
  rcases member with earlier | rfl | later
  · exact absurd le (serial.2.2 env earlier B (by simp)).not_ge
  · exact pointer
  · exact still before after split env later

theorem StillBound.exists_pointer (pointer : B.payload ≠ []) {pos : Nat}
    (acked : (B, pos) ∈ s.acked) :
    ∃ env, s.answer pos = .value env ∧ B.stamp ≤ env.stamp := by
  rcases inv.of_kept (inv.acked B pos acked) with ⟨env, -, found, le⟩ | ⟨env, issued, empty, -, le⟩
  · exact ⟨env, answer_eq_value.mpr found, le⟩
  · exact absurd empty (still.payload_ne_nil inv bound pointer issued le)

end

/-- The legs of a guard's sweep: no position is asked twice, and the sweep requires `quota` answers,
also where it hears a tombstone. -/
structure GuardSweep (times : State → Prop) (r quota : Nat) (rc : ReadConsistency) (stableR : Nat)
    (legs : List (Nat × LegAnswer)) : Prop extends SweepOf times r legs where
  distinct : (legs.map Prod.fst).Nodup
  needs : quota ≤ min (requiredReadReplicas (guardConsistency rc) stableR) legs.length
  witnessed : ∀ env, .value env ∈ legs.map Prod.snd → env.payload = [] →
    quota ≤ (legs.map Prod.snd).countP LegAnswer.answered

theorem guardConsistency_ne_nearest (rc : ReadConsistency) : guardConsistency rc ≠ .nearest := by
  cases rc <;> decide

def someRef : BlobRef := ⟨[117], [107], [105]⟩

def widelyBound : State :=
  (machine trio).endOf (BindsWidely trio 2)
    [.draw 0 5 [1], .commit, .compare 1 1 ⟨⟨5, 0⟩, [1]⟩, .store 1, .returnCas ⟨⟨5, 0⟩, [1]⟩]
    (initial fun _ => 0)

def narrowlyBound : State :=
  (machine trio).endOf anyAction
    [.draw 0 5 [1], .commit, .returnCas ⟨⟨5, 0⟩, [1]⟩] (initial fun _ => 0)

def boundAgain : State :=
  (machine trio).endOf anyAction
    [.draw 0 5 [1], .commit, .returnCas ⟨⟨5, 0⟩, [1]⟩,
      .draw 0 6 [], .commit, .compare 2 2 ⟨⟨6, 0⟩, []⟩, .store 2, .returnCas ⟨⟨6, 0⟩, []⟩,
      .draw 0 7 [2], .commit, .compare 1 1 ⟨⟨7, 0⟩, [2]⟩, .store 1, .returnCas ⟨⟨7, 0⟩, [2]⟩]
    (initial fun _ => 0)

end Shale.Blob
