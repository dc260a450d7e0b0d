import Shale.Replication.Routing

/-!
# Fan-out, ack bars and the write retry

`fanout` of `replicate.go` sends one operation to every leg and accounts for the reports
in the order they arrive; the caller sees the counts of some prefix of them. A replicated
write classifies those counts against its ack bar and retries attempts that failed on
transient reports only (`multibackend_handoff_retry.go`).
-/

namespace Shale

inductive WriteConsistency where
  | one
  | quorum
  | all
deriving DecidableEq, Repr

def requiredWriteAcks : WriteConsistency → Nat → Nat
  | .one, _ => 1
  | .all, r => r
  | .quorum, r => r / 2 + 1

inductive ReadConsistency where
  | nearest
  | quorum
  | all
deriving DecidableEq, Repr

def requiredReadReplicas : ReadConsistency → Nat → Nat
  | .all, r => r
  | .quorum, r => r / 2 + 1
  | .nearest, _ => 1

theorem requiredWriteAcks_pos {wc : WriteConsistency} {r : Nat} (replicated : 0 < r) :
    0 < requiredWriteAcks wc r := by
  cases wc <;> simp only [requiredWriteAcks] <;> omega

/-- How one leg reported: without an error, with one that `isTransientReplicaErr`
recognises, or with any other. -/
inductive LegReport where
  | ack
  | transient
  | failed
deriving DecidableEq, Repr

/-- The counts that `fanout` keeps. -/
structure Tally where
  acks : Nat
  transient : Nat
  errs : Nat
deriving DecidableEq, Repr

def Tally.add (tally : Tally) : LegReport → Tally
  | .ack => { tally with acks := tally.acks + 1 }
  | .transient => { tally with transient := tally.transient + 1 }
  | .failed => { tally with errs := tally.errs + 1 }

def tally (reports : List LegReport) : Tally :=
  reports.foldl Tally.add ⟨0, 0, 0⟩

private theorem foldl_add (reports : List LegReport) (start : Tally) :
    reports.foldl Tally.add start =
      ⟨start.acks + reports.count .ack, start.transient + reports.count .transient,
        start.errs + reports.count .failed⟩ := by
  induction reports generalizing start with
  | nil => simp
  | cons report rest ih =>
    rw [List.foldl_cons, ih]
    cases report <;> simp [Tally.add] <;> omega

theorem tally_eq (reports : List LegReport) :
    tally reports = ⟨reports.count .ack, reports.count .transient, reports.count .failed⟩ := by
  simp [tally, foldl_add]

def clampAcks (required legs : Nat) : Nat :=
  min (max required 1) legs

def decided (legs required : Nat) (reports : List LegReport) : Bool :=
  let bar := clampAcks required legs
  decide (bar ≤ (tally reports).acks) || decide (legs - bar < (tally reports).errs) ||
    decide (reports.length = legs)

inductive AttemptVerdict where
  | acked
  | retryable
  | hard
deriving DecidableEq, Repr

def classifyWriteAttempt (counts : Tally) (w : Nat) : AttemptVerdict :=
  if w ≤ counts.acks then .acked else if counts.errs = 0 then .retryable else .hard

/-- Where one attempt of a replicated write goes: the legs its ack bar counts, the
best-effort legs, and the bar. -/
structure WriteRoute where
  auth : List RoutedReplica
  supp : List RoutedReplica
  bar : Nat

def View.writeRoute (v : View) (wc : WriteConsistency) (h : ShardHash) : WriteRoute :=
  match v.routedReplicasForReshard h with
  | some legs =>
    { auth := legs.auth, supp := legs.supp, bar := requiredWriteAcks wc legs.stableR }
  | none =>
    let routed := v.routedReplicasWithUnit (v.gs.resolveGenUnit h)
    { auth := routed.1, supp := [], bar := requiredWriteAcks wc routed.2 }

theorem View.writeRoute_of_stable (v : View) (noJoin : v.joining = []) (noDrain : v.draining = [])
    (steady : v.gs.nextCount = none) (wc : WriteConsistency) (h : ShardHash) :
    v.writeRoute wc h =
      { auth := legsAt (v.gs.resolveGenUnit h) (v.unitReplicas (v.gs.resolveGenUnit h))
        supp := []
        bar := requiredWriteAcks wc (v.unitReplicas (v.gs.resolveGenUnit h)).length } := by
  rw [View.writeRoute, (v.routedReplicasForReshard_none h).mpr steady]
  rw [v.routedReplicasWithUnit_of_stable noJoin noDrain]

theorem View.writeRoute_bar_pos (v : View) (wc : WriteConsistency) (h : ShardHash) :
    0 < (v.writeRoute wc h).bar := by
  unfold View.writeRoute
  split
  case h_1 legs routed =>
    apply requiredWriteAcks_pos
    unfold View.routedReplicasForReshard at routed
    split at routed
    · cases routed
    case h_2 next entered =>
      have members := v.unitReplicas_ne_nil
        ⟨v.gs.gen, unitForHash h v.gs.count⟩
      have positive := List.length_pos_iff.mpr members
      simp only [members, ↓reduceIte] at routed
      split at routed <;>
      · cases routed
        exact positive
  case h_2 =>
    apply requiredWriteAcks_pos
    have stable := v.stableR_pos (v.gs.resolveGenUnit h)
    unfold View.routedReplicasWithUnit
    split <;> exact stable

end Shale
