import Mathlib.Data.Prod.Lex
import Shale.Storage.Store

/-!
# Envelopes and apply-if-newer

At several replicas a database stores last-writer-wins envelopes: a stamp and a payload.
A replica applies an envelope only if its stamp beats the stored one, so that the stamps
a database holds never go down, however the applies are ordered.
-/

namespace Shale

/-- `Stamp`. Node ids are strings in the source; only their order is used here. -/
structure Stamp where
  timestamp : Nat
  node : Nat
deriving DecidableEq, Repr

namespace Stamp

def greater (a b : Stamp) : Bool :=
  if a.timestamp ≠ b.timestamp then decide (a.timestamp > b.timestamp)
  else decide (a.node > b.node)

/-- The order of stamps: by timestamp, then by node id. -/
instance : LinearOrder Stamp :=
  LinearOrder.lift' (fun stamp => toLex (stamp.timestamp, stamp.node)) fun a b same => by
    cases a
    cases b
    simpa using congrArg ofLex same

theorem lt_iff {a b : Stamp} :
    a < b ↔ a.timestamp < b.timestamp ∨ a.timestamp = b.timestamp ∧ a.node < b.node :=
  Prod.Lex.toLex_lt_toLex

theorem greater_iff {a b : Stamp} : a.greater b = true ↔ b < a := by
  rw [lt_iff]
  unfold greater
  split
  · rw [decide_eq_true_eq]
    omega
  · rw [decide_eq_true_eq]
    omega

def zero : Stamp := ⟨0, 0⟩

end Stamp

structure Envelope where
  stamp : Stamp
  payload : Bytes
deriving DecidableEq, Repr

def appliesOver (stored : Option Envelope) (incoming : Envelope) : Bool :=
  match stored with
  | none => true
  | some env => incoming.stamp.greater env.stamp

namespace Store

variable {store : Store Envelope} {key other : Bytes} {env : Envelope} {stamp : Stamp}

def applyIfNewer (store : Store Envelope) (key : Bytes) (env : Envelope) : Store Envelope :=
  if appliesOver (store.get key) env then store.put key env else store

def HoldsAtLeast (store : Store Envelope) (key : Bytes) (stamp : Stamp) : Prop :=
  ∃ env, store.get key = some env ∧ stamp ≤ env.stamp

instance : Decidable (store.HoldsAtLeast key stamp) :=
  match held : store.get key with
  | none => isFalse fun ⟨_, found, _⟩ => by simp [held] at found
  | some env =>
    if le : stamp ≤ env.stamp then isTrue ⟨env, held, le⟩
    else isFalse fun ⟨other, found, below⟩ => le (by
      cases held.symm.trans found
      exact below)

theorem holdsAtLeast_applyIfNewer_self (store : Store Envelope) (key : Bytes)
    (env : Envelope) : (store.applyIfNewer key env).HoldsAtLeast key env.stamp := by
  unfold applyIfNewer
  split
  case isTrue => exact ⟨env, get_put_self, le_rfl⟩
  case isFalse beaten =>
    cases held : store.get key with
    | none => simp [appliesOver, held] at beaten
    | some stored =>
      refine ⟨stored, held, ?_⟩
      rw [← not_lt, ← Stamp.greater_iff]
      simpa [appliesOver, held] using beaten

theorem HoldsAtLeast.applyIfNewer (holds : store.HoldsAtLeast key stamp) (other : Bytes)
    (env : Envelope) : (store.applyIfNewer other env).HoldsAtLeast key stamp := by
  unfold Store.applyIfNewer
  split
  case isFalse => exact holds
  case isTrue newer =>
    obtain ⟨stored, held, below⟩ := holds
    by_cases same : key = other
    · subst same
      refine ⟨env, get_put_self, below.trans (le_of_lt ?_)⟩
      rw [← Stamp.greater_iff]
      simpa [appliesOver, held] using newer
    · exact ⟨stored, by rw [get_put_of_ne same, held], below⟩

theorem HoldsAtLeast.mono {lower : Stamp} (holds : store.HoldsAtLeast key stamp)
    (le : lower ≤ stamp) : store.HoldsAtLeast key lower := by
  obtain ⟨env, held, below⟩ := holds
  exact ⟨env, held, le.trans below⟩

end Store

end Shale
