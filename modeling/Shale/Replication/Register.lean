import Shale.Replication.Fanout
import Shale.Transaction.Position

/-!
# One key at all its positions

The copies of one key in the databases of its unit's positions, with everything that writes
them: plain puts and deletes, which a node stamps and fans out; owner-local commits, which
draw a stamp at position 0, store there and fan out afterwards; applies, which may deliver
an envelope to a position at any time, late, repeatedly or as a read repair; and tombstone
purges.

An apply compares under `applyMu` and stores in a second step, and a commit draws its stamp
under `casCommitMu` and stores in a second step, so that the two can interleave at position
0. A purge holds both locks and is one step.
-/

namespace Shale.Register

open Machine

open Function (update)

open Position (nextStamp)

structure TombstonePurgeVerdict where
  eligible : Bool
  reason : String
deriving DecidableEq

def tombstonePurge (grace r requiredAcks : Nat) : TombstonePurgeVerdict :=
  if grace = 0 then ⟨false, "disabled (TombstoneGracePeriod is zero)"⟩
  else if r ≤ 1 then
    ⟨false, "single-copy mode: deletes are native, no shale tombstones exist"⟩
  else if requiredAcks < r then
    ⟨false, s!"write ack bar {requiredAcks} < R {r}: a lagging replica could resurrect a purged " ++
      "delete; purge requires WriteConsistency covering all replicas"⟩
  else ⟨true, ""⟩

/-- The age is a `time.Duration`, which an age of 2^63 or more turns negative. -/
def tombstoneExpired (stampNanos nowNanos grace : Nat) : Bool :=
  if stampNanos = 0 ∨ nowNanos ≤ stampNanos then false
  else decide (((nowNanos - stampNanos : Nat) : Int).bmod (2 ^ 64) > grace)

structure Config where
  r : Nat
  wc : WriteConsistency
  grace : Nat

def Config.purges (c : Config) : Bool :=
  (tombstonePurge c.grace c.r (requiredWriteAcks c.wc c.r)).eligible

/-- The databases; the apply at each position that has won its compare and not yet stored;
the commit that has drawn its stamp and not yet stored; the stamp clocks. Then the history:
the stamps drawn, the envelopes that can be delivered, those of commits, the positions that
have applied an envelope or found it superseded, the calls that have returned nil, and what
has been purged where. -/
structure State where
  db : Nat → Option Envelope
  opened : Nat → Option Envelope
  committing : Option Envelope
  clock : Nat → Nat
  drawn : List Envelope
  issued : List Envelope
  commits : List Envelope
  acked : List (Envelope × Nat)
  returned : List Envelope
  purged : List (Nat × Stamp)

/-- An action names the node that it runs on where it uses that node's clock: the nodes that
serve a position, the owner at position 0 among them, may change along a run. -/
inductive Action where
  | put (node wall : Nat) (payload : Bytes)
  | compare (node pos : Nat) (env : Envelope)
  | store (pos : Nat)
  | abort (pos : Nat)
  | draw (node wall : Nat) (payload : Bytes)
  | commit
  | rollback
  | returnPut (env : Envelope) (live : Nat)
  | returnCas (env : Envelope)
  | purge (pos now : Nat)
  | observe (node timestamp : Nat)
deriving DecidableEq

def storedTimestamp (stored : Option Envelope) : Nat :=
  (stored.map fun env => env.stamp.timestamp).getD 0

namespace State

variable (s : State)

def observe (node timestamp : Nat) : State :=
  { s with clock := update s.clock node (max (s.clock node) timestamp) }

theorem clock_le_observe (node timestamp : Nat) : s.clock ≤ (s.observe node timestamp).clock := by
  intro other
  by_cases same : other = node
  · subst same
    simp [observe]
  · simp [observe, same]

theorem le_clock_observe (node timestamp : Nat) :
    timestamp ≤ (s.observe node timestamp).clock node := by
  simp [observe]

def putEnvelope (node wall : Nat) (payload : Bytes) : Envelope :=
  ⟨⟨nextStamp (s.clock node) wall, node⟩, payload⟩

def commitEnvelope (node wall : Nat) (payload : Bytes) : Envelope :=
  ⟨⟨nextStamp (max (s.clock node) (storedTimestamp (s.db 0))) wall, node⟩, payload⟩

def ackedBy (env : Envelope) (live : Nat) : List Nat :=
  (List.range live).filter fun pos => decide ((env, pos) ∈ s.acked)

end State

variable (c : Config)

def step (action : Action) (s : State) : Option State :=
  match action with
  | .put node wall payload =>
    let env := s.putEnvelope node wall payload
    some { s.observe node env.stamp.timestamp with
      drawn := s.drawn ++ [env]
      issued := s.issued ++ [env] }
  | .compare node pos env =>
    if env ∈ s.issued ∧ pos < c.r ∧ s.opened pos = none then
      let seen := (s.observe node env.stamp.timestamp).observe node (storedTimestamp (s.db pos))
      if appliesOver (s.db pos) env then
        some { seen with opened := update s.opened pos (some env) }
      else some { seen with acked := s.acked ++ [(env, pos)] }
    else none
  | .store pos =>
    match s.opened pos with
    | none => none
    | some env =>
      some { s with
        db := update s.db pos (some env)
        opened := update s.opened pos none
        acked := s.acked ++ [(env, pos)] }
  | .abort pos => some { s with opened := update s.opened pos none }
  | .draw node wall payload =>
    if s.committing = none then
      let env := s.commitEnvelope node wall payload
      some { s.observe node env.stamp.timestamp with
        committing := some env
        drawn := s.drawn ++ [env] }
    else none
  | .commit =>
    match s.committing with
    | none => none
    | some env =>
      some { s with
        db := update s.db 0 (some env)
        committing := none
        issued := s.issued ++ [env]
        commits := s.commits ++ [env]
        acked := s.acked ++ [(env, 0)] }
  | .rollback => some { s with committing := none }
  | .returnPut env live =>
    if env ∈ s.issued ∧ env ∉ s.commits ∧ 0 < live ∧ live ≤ c.r ∧
        requiredWriteAcks c.wc live ≤ (s.ackedBy env live).length then
      some { s with returned := s.returned ++ [env] }
    else none
  | .returnCas env =>
    if env ∈ s.commits then some { s with returned := s.returned ++ [env] } else none
  | .purge pos now =>
    match s.db pos with
    | none => none
    | some env =>
      if c.purges ∧ s.opened pos = none ∧ (pos = 0 → s.committing = none) ∧
          env.payload = [] ∧ tombstoneExpired env.stamp.timestamp now c.grace then
        some { s with
          db := update s.db pos none
          purged := s.purged ++ [(pos, env.stamp)] }
      else none
  | .observe node timestamp => some (s.observe node timestamp)

inductive Effect (s : State) : Action → State → Prop where
  | put {node wall : Nat} {payload : Bytes} {clock : Nat → Nat} {env : Envelope}
      (made : env = s.putEnvelope node wall payload) (rises : s.clock ≤ clock)
      (noted : env.stamp.timestamp ≤ clock node) :
      Effect s (.put node wall payload)
        { s with clock, drawn := s.drawn ++ [env], issued := s.issued ++ [env] }
  | wins {node pos : Nat} {env : Envelope} {clock : Nat → Nat} (issued : env ∈ s.issued)
      (newer : appliesOver (s.db pos) env = true) (rises : s.clock ≤ clock) :
      Effect s (.compare node pos env)
        { s with clock, opened := update s.opened pos (some env) }
  | loses {node pos : Nat} {env : Envelope} {clock : Nat → Nat} (issued : env ∈ s.issued)
      (older : appliesOver (s.db pos) env = false) (rises : s.clock ≤ clock) :
      Effect s (.compare node pos env) { s with clock, acked := s.acked ++ [(env, pos)] }
  | store {pos : Nat} {env : Envelope} (held : s.opened pos = some env) :
      Effect s (.store pos)
        { s with
          db := update s.db pos (some env)
          opened := update s.opened pos none
          acked := s.acked ++ [(env, pos)] }
  | abort {pos : Nat} :
      Effect s (.abort pos) { s with opened := update s.opened pos none }
  | draw {node wall : Nat} {payload : Bytes} {clock : Nat → Nat} {env : Envelope}
      (made : env = s.commitEnvelope node wall payload) (rises : s.clock ≤ clock)
      (noted : env.stamp.timestamp ≤ clock node) :
      Effect s (.draw node wall payload)
        { s with clock, committing := some env, drawn := s.drawn ++ [env] }
  | commit {env : Envelope} (open_ : s.committing = some env) :
      Effect s .commit
        { s with
          db := update s.db 0 (some env)
          committing := none
          issued := s.issued ++ [env]
          commits := s.commits ++ [env]
          acked := s.acked ++ [(env, 0)] }
  | rollback : Effect s .rollback { s with committing := none }
  | returnPut {env : Envelope} {live : Nat} (issued : env ∈ s.issued) (plain : env ∉ s.commits) :
      Effect s (.returnPut env live) { s with returned := s.returned ++ [env] }
  | returnCas {env : Envelope} (committed : env ∈ s.commits) :
      Effect s (.returnCas env) { s with returned := s.returned ++ [env] }
  | purge {pos now : Nat} {env : Envelope} (found : s.db pos = some env)
      (idle : s.opened pos = none) (uncommitted : pos = 0 → s.committing = none)
      (tombstone : env.payload = []) :
      Effect s (.purge pos now)
        { s with
          db := update s.db pos none
          purged := s.purged ++ [(pos, env.stamp)] }
  | observe {node timestamp : Nat} {clock : Nat → Nat} (rises : s.clock ≤ clock) :
      Effect s (.observe node timestamp) { s with clock }

theorem effect_of_step {action : Action} {s s' : State} (stepped : step c action s = some s') :
    Effect s action s' := by
  cases action with
  | put node wall payload =>
    cases stepped
    exact .put rfl (s.clock_le_observe _ _) (s.le_clock_observe _ _)
  | compare node pos env =>
    simp only [step] at stepped
    split at stepped
    case isTrue enabled =>
      have seen : s.clock ≤ ((s.observe node env.stamp.timestamp).observe node
          (storedTimestamp (s.db pos))).clock :=
        (s.clock_le_observe _ _).trans (State.clock_le_observe _ _ _)
      split at stepped
      case isTrue newer =>
        cases stepped
        exact .wins enabled.1 newer seen
      case isFalse older =>
        cases stepped
        exact .loses enabled.1 (Bool.not_eq_true _ ▸ older) seen
    case isFalse => cases stepped
  | store pos =>
    simp only [step] at stepped
    split at stepped
    case h_1 => cases stepped
    case h_2 env held =>
      cases stepped
      exact .store held
  | abort pos =>
    cases stepped
    exact .abort
  | draw node wall payload =>
    obtain ⟨-, rfl⟩ := of_guard stepped
    exact .draw rfl (s.clock_le_observe _ _) (s.le_clock_observe _ _)
  | commit =>
    simp only [step] at stepped
    split at stepped
    case h_1 => cases stepped
    case h_2 env open_ =>
      cases stepped
      exact .commit open_
  | rollback =>
    cases stepped
    exact .rollback
  | returnPut env live =>
    obtain ⟨enabled, rfl⟩ := of_guard stepped
    exact .returnPut enabled.1 enabled.2.1
  | returnCas env =>
    obtain ⟨committed, rfl⟩ := of_guard stepped
    exact .returnCas committed
  | purge pos now =>
    simp only [step] at stepped
    split at stepped
    case h_1 => cases stepped
    case h_2 env found =>
      obtain ⟨enabled, rfl⟩ := of_guard stepped
      exact .purge found enabled.2.1 enabled.2.2.1 enabled.2.2.2.1
  | observe node timestamp =>
    cases stepped
    exact .observe (s.clock_le_observe _ _)

def machine : Machine State Action := ⟨step c⟩

@[simp] theorem machine_step : (machine c).step = step c := rfl

def initial (clock : Nat → Nat) : State where
  db := fun _ => none
  opened := fun _ => none
  committing := none
  clock
  drawn := []
  issued := []
  commits := []
  acked := []
  returned := []
  purged := []

def trio : Config := ⟨3, .quorum, 0⟩

end Shale.Register
