import Shale.Replication.RegisterOrder

/-!
# A transaction over an acked put

A put of a key returns, and a transaction then writes the key. The commit draws its stamp
from the owner's clock, which has seen what the owner stores and observes. If that clock is
ahead of the put, and no apply of the put is between its compare and its store at the
owner, then the owner stores the commit for good and every read that hears it returns it. If
the put was acked by the other positions under a faster clock, the commit draws a lower
stamp, and the put is what reads return and repairs spread.
-/

namespace Shale.Register

open Machine

variable {c : Config} {s s' : State} {action : Action} {pos : Nat} {P T : Envelope}

def SparesCommits (s : State) : Action → Prop
  | .purge pos _ => ∀ env ∈ s.db pos, env ∉ s.commits
  | _ => True

instance : DecidableRel SparesCommits := fun s action =>
  match action with
  | .purge pos _ => inferInstanceAs (Decidable (∀ env ∈ s.db pos, env ∉ s.commits))
  | .put .. | .compare .. | .store _ | .abort _ | .draw .. | .commit | .rollback
  | .returnPut .. | .returnCas _ | .observe .. => isTrue trivial

/-- At most one put of the key, before any transaction draws a stamp for it; then
transactions whose owner is ahead, and no purge of what they wrote. -/
def CommitsAfterPut (s : State) (action : Action) : Prop :=
  (action.isPut = true → s.drawn = []) ∧ OwnerAhead s action ∧ SparesCommits s action

instance : DecidableRel CommitsAfterPut := fun _ _ =>
  inferInstanceAs (Decidable (_ ∧ _ ∧ _))

structure SparedInv (s : State) : Prop extends SerialInv s where
  spared : ∀ pos top, (pos, top) ∈ s.purged → ∀ env ∈ s.commits, env.stamp ≠ top

namespace SparedInv

theorem initial (clock : Nat → Nat) : SparedInv (initial clock) where
  toSerialInv := .initial clock
  spared := fun _ _ member => by cases member

theorem step (inv : SparedInv s) (allowed : CommitsAfterPut s action)
    (stepped : Register.step c action s = some s') : SparedInv s' := by
  have base := inv.toSerialInv.step allowed.2.1 allowed.1 stepped
  refine { base with spared := ?_ }
  cases effect_of_step c stepped with
  | @commit new open_ =>
    intro pos top gone env mem
    rcases List.mem_append.mp mem with old | last
    · exact inv.spared pos top gone env old
    · -- what is purged was issued, and the commit is newer
      obtain ⟨tombstone, issued, -, rfl⟩ := inv.purged pos top gone
      rw [List.mem_singleton.mp last]
      exact (inv.latest new open_ tombstone issued).ne'
  | @purge at_ _ tombstone found =>
    intro pos top gone env mem
    rcases List.mem_append.mp gone with old | new
    · exact inv.spared pos top old env mem
    · cases List.mem_singleton.mp new
      intro same
      have issued := inv.stored _ tombstone found
      obtain rfl := inv.eq_of_stamp_eq (inv.commits env mem).1 issued same
      exact allowed.2.2 env found mem
  | _ => exact inv.spared

theorem eq_of_kept (inv : SparedInv s) (only : s.issued = [P, T]) (committed : T ∈ s.commits)
    (kept : Kept s pos T.stamp) : s.db pos = some T := by
  have lt : P.stamp < T.stamp := by simpa [only] using inv.rising
  have newest : ∀ env ∈ s.issued, T.stamp ≤ env.stamp → env = T := by
    intro env issued le
    rw [only, List.mem_pair] at issued
    rcases issued with rfl | rfl
    · exact absurd le lt.not_ge
    · rfl
  rcases inv.of_kept kept with ⟨env, issued, found, le⟩ | ⟨env, issued, -, gone, le⟩
  · rw [found, newest env issued le]
  · rw [newest env issued le] at gone
    exact absurd rfl (inv.spared pos _ gone T committed)

end SparedInv

structure KeptBy (T : Envelope) (positions : Nat → Prop) (s : State) : Prop where
  inv : SparedInv s
  committed : T ∈ s.commits
  kept : ∀ pos, positions pos → Kept s pos T.stamp

variable {positions : Nat → Prop}

theorem KeptBy.step (before : KeptBy T positions s) (allowed : CommitsAfterPut s action)
    (stepped : Register.step c action s = some s') :
    KeptBy T positions s' where
  inv := before.inv.step allowed stepped
  committed := (extends_of_step stepped).commits.subset before.committed
  kept := fun pos member => before.inv.toInv.kept_step
    (before.inv.toSerialInv.ordered allowed.2.1 allowed.1) stepped (before.kept pos member)

theorem KeptBy.reaches (before : KeptBy T positions s)
    (reached : (machine c).Reaches CommitsAfterPut s s') : KeptBy T positions s' :=
  reached.invariant before fun kept allowed stepped => kept.step allowed stepped

theorem KeptBy.eq (kept : KeptBy T positions s) (only : s.issued = [P, T]) (mem : positions pos) :
    s.db pos = some T :=
  kept.inv.eq_of_kept only kept.committed (kept.kept pos mem)

theorem SparedInv.keptBy_owner (inv : SparedInv s) (committed : T ∈ s.commits) :
    KeptBy T (· = 0) s :=
  ⟨inv, committed, fun _ owner => owner ▸ inv.acked T 0 (inv.commits T committed).2⟩

/-- **A commit outlives the put before it.** Where the owner of the key is ahead, every later
quorum read in which all positions answer, in any order and each at its own time, returns the
transaction's envelope, and a position that stores it keeps it. -/
theorem commit_outlives_put (c : Config) (some_r : 0 < c.r) (clock : Nat → Nat) (s : State)
    (reached : (machine c).Reaches CommitsAfterPut (initial clock) s) (P T : Envelope)
    (only : s.issued = [P, T]) (committed : T ∈ s.commits) :
    (∀ (order : List Nat) (seen : Nat → State), order.Perm (List.range c.r) →
      (∀ pos, (machine c).Reaches CommitsAfterPut s (seen pos) ∧
        (seen pos).issued = [P, T]) →
      getReplicatedUnitOnce ⟨.quorum, false⟩ c.r (order.map fun pos => (seen pos).answer pos) =
        .ok T) ∧
    ∀ s' s'', (machine c).Reaches CommitsAfterPut s s' →
      (machine c).Reaches CommitsAfterPut s' s'' → s''.issued = [P, T] →
      ∀ pos, s'.db pos = some T → s''.db pos = some T := by
  have inv : SparedInv s := reached.invariant (.initial clock)
    fun inv allowed stepped => inv.step allowed stepped
  constructor
  · intro order seen asked later
    have owner : (seen 0).db 0 = some T :=
      ((inv.keptBy_owner committed).reaches (later 0).1).eq (later 0).2 rfl
    have heard : LegAnswer.value T ∈ order.map fun pos => (seen pos).answer pos :=
      List.mem_map.mpr ⟨0, asked.mem_iff.mpr (List.mem_range.mpr some_r), answer_eq_value.mpr owner⟩
    have strict : (⟨.quorum, false⟩ : ReadOpts).rc ≠ .nearest := by decide
    obtain ⟨decided, returned, member, le⟩ :
        ∃ decided, getReplicatedUnitOnce ⟨.quorum, false⟩ c.r
          (order.map fun pos => (seen pos).answer pos) = .ok decided ∧ _ :=
      getReplicatedUnitOnce_of_value strict heard
    obtain ⟨pos, -, answered⟩ := List.mem_map.mp member
    -- the winner is one of the two envelopes, and not the older one
    have last := ((inv.keptBy_owner committed).reaches (later pos).1).inv
    have issued := last.stored pos decided (answer_eq_value.mp answered)
    have lt : P.stamp < T.stamp := by simpa [only] using inv.rising
    rw [(later pos).2, List.mem_pair] at issued
    rcases issued with rfl | rfl
    · exact absurd le lt.not_ge
    · exact returned
  · intro s' s'' before after only' pos stores
    have held := (inv.keptBy_owner committed).reaches before
    have kept : KeptBy T (· = pos) s' :=
      ⟨held.inv, held.committed, fun _ same => same ▸ .inl ⟨T, stores, le_rfl⟩⟩
    exact (kept.reaches after).eq only' rfl

/-- A put acked by positions 1 and 2, and a transaction whose owner's clock is ahead. -/
def afterPut : State :=
  (machine trio).endOf CommitsAfterPut
    [.put 1 5 [1], .compare 1 1 ⟨⟨5, 1⟩, [1]⟩, .store 1, .compare 2 2 ⟨⟨5, 1⟩, [1]⟩, .store 2,
      .returnPut ⟨⟨5, 1⟩, [1]⟩ 3, .draw 0 9 [2], .commit, .returnCas ⟨⟨9, 0⟩, [2]⟩]
    (initial fun _ => 0)

theorem afterPut_returns_commit :
    afterPut.returned = [⟨⟨5, 1⟩, [1]⟩, ⟨⟨9, 0⟩, [2]⟩] ∧
      getReplicatedUnitOnce ⟨.quorum, false⟩ 3 ([2, 1, 0].map afterPut.answer) =
        .ok ⟨⟨9, 0⟩, [2]⟩ :=
  ⟨by decide, (commit_outlives_put trio (by decide) (fun _ => 0) afterPut
    (reaches_endOf _ _ _ _ (by decide)) ⟨⟨5, 1⟩, [1]⟩ ⟨⟨9, 0⟩, [2]⟩ (by decide)
    (by decide)).1 [2, 1, 0] (fun _ => afterPut) (by decide) fun _ => ⟨.refl, by decide⟩⟩

/-- A put acked by positions 1 and 2 under node 1's clock. -/
def fastPut : State :=
  (machine trio).endOf anyAction
    [.put 1 9 [1], .compare 1 1 ⟨⟨9, 1⟩, [1]⟩, .store 1, .compare 2 2 ⟨⟨9, 1⟩, [1]⟩, .store 2,
      .returnPut ⟨⟨9, 1⟩, [1]⟩ 3]
    (initial fun _ => 0)

/-- A transaction after it, under the slower clock of the owner, which has not seen it: the
two other positions ack the commit as superseded. -/
def slowCommit : State :=
  (machine trio).endOf anyAction
    [.draw 0 5 [2], .commit, .compare 1 1 ⟨⟨5, 0⟩, [2]⟩, .compare 2 2 ⟨⟨5, 0⟩, [2]⟩,
      .returnCas ⟨⟨5, 0⟩, [2]⟩]
    fastPut

/-- The put has returned before the transaction draws its stamp, both have returned, and yet
a read that hears all positions returns the put, whose repair then replaces the commit at
the owner. -/
theorem put_undoes_commit :
    (machine trio).Reaches anyAction (initial fun _ => 0) fastPut ∧
      fastPut.returned = [⟨⟨9, 1⟩, [1]⟩] ∧ fastPut.drawn = fastPut.returned ∧
      (machine trio).Reaches anyAction fastPut slowCommit ∧
      slowCommit.returned = [⟨⟨9, 1⟩, [1]⟩, ⟨⟨5, 0⟩, [2]⟩] ∧
      slowCommit.issued = slowCommit.returned ∧ slowCommit.db 0 = some ⟨⟨5, 0⟩, [2]⟩ ∧
      getReplicatedUnitOnce ⟨.quorum, false⟩ 3
        ([0, 1, 2].map slowCommit.answer) = .ok ⟨⟨9, 1⟩, [1]⟩ ∧
      ∃ s, (machine trio).Reaches anyAction slowCommit s ∧
        s.issued = slowCommit.issued ∧ s.db 0 = some ⟨⟨9, 1⟩, [1]⟩ :=
  ⟨reaches_endOf _ _ _ _ (by decide), by decide, by decide,
    reaches_endOf _ _ _ _ (by decide), by decide, by decide, by decide, by decide,
    (machine trio).exists_reaches_of_run anyAction [.compare 0 0 ⟨⟨9, 1⟩, [1]⟩, .store 0]
      slowCommit (fun s => s.issued = slowCommit.issued ∧ s.db 0 = some ⟨⟨9, 1⟩, [1]⟩)
      (by decide)⟩

end Shale.Register
