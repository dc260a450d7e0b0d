import Shale.Replication.RegisterOrder

/-!
# Purged tombstones

A position that purges an expired tombstone forgets that the key was deleted, and keeps
nothing to tell an older envelope from a new one. A deleted key stays deleted if the delete
was acked by all positions before it returned, and a position that has purged a tombstone is
not sent an older envelope afterwards.
-/

namespace Shale.Register

open Machine

variable {c : Config} {s s' : State} {action : Action} {D : Envelope}

/-- An `Ordered` action that sends no envelope to a position that has purged a newer one, and
returns a delete only when all positions have acked it. -/
def PurgesSafely (c : Config) (s : State) (action : Action) : Prop :=
  Ordered s action ∧
    match action with
    | .compare _ pos env => ∀ gone ∈ s.purged, gone.1 = pos → gone.2 ≤ env.stamp
    | .returnPut env _ | .returnCas env => env.payload = [] → ∀ pos < c.r, (env, pos) ∈ s.acked
    | _ => True

instance : LawfulBEq (Envelope × Nat) := inferInstance

instance (c : Config) : DecidableRel (PurgesSafely c) := fun s action =>
  @instDecidableAnd _ _ (inferInstanceAs (Decidable (Ordered s action))) <|
    match action with
    | .compare _ pos env =>
      inferInstanceAs (Decidable (∀ gone ∈ s.purged, gone.1 = pos → gone.2 ≤ env.stamp))
    | .returnPut env _ | .returnCas env =>
      inferInstanceAs (Decidable (env.payload = [] → ∀ pos < c.r, (env, pos) ∈ s.acked))
    | .put .. | .store _ | .abort _ | .draw .. | .commit | .rollback | .purge .. | .observe .. =>
      isTrue trivial

/-- What a position stores or is about to store is as new as what it has purged, and returned
deletes have been acked everywhere. -/
structure PurgeInv (c : Config) (s : State) : Prop extends Inv s where
  above : ∀ pos top env, (pos, top) ∈ s.purged → s.db pos = some env → top ≤ env.stamp
  incoming : ∀ pos top env, (pos, top) ∈ s.purged → s.opened pos = some env → top ≤ env.stamp
  committed : ∀ top env, (0, top) ∈ s.purged → s.committing = some env → top ≤ env.stamp
  everywhere : ∀ env ∈ s.returned,
    env ∈ s.issued ∧ (env.payload = [] → ∀ pos < c.r, (env, pos) ∈ s.acked)

namespace PurgeInv

theorem initial (clock : Nat → Nat) : PurgeInv c (initial clock) where
  toInv := .initial clock
  above := fun _ _ _ member => by cases member
  incoming := fun _ _ _ member => by cases member
  committed := fun _ _ member => by cases member
  everywhere := fun _ member => by cases member

theorem step (inv : PurgeInv c s) (allowed : PurgesSafely c s action)
    (stepped : Register.step c action s = some s') : PurgeInv c s' := by
  obtain ⟨ordered, safely⟩ := allowed
  have base : Inv s' := inv.toInv.step ordered stepped
  have kept : ∀ env ∈ s.returned,
      env ∈ s'.issued ∧ (env.payload = [] → ∀ pos < c.r, (env, pos) ∈ s'.acked) := by
    intro env member
    have grown := extends_of_step stepped
    obtain ⟨issued, everywhere⟩ := inv.everywhere env member
    exact ⟨grown.issued.subset issued, fun empty pos inside =>
      grown.acked.subset (everywhere empty pos inside)⟩
  cases effect_of_step c stepped with
  | put | loses => exact { inv with toInv := base, everywhere := kept }
  | observe => exact { inv with toInv := base }
  | @wins _ at_ env =>
    refine { inv with toInv := base, incoming := ?_ }
    intro pos top other gone held
    rcases of_update_eq_some held with ⟨rfl, new⟩ | ⟨-, old⟩
    · exact Option.some.inj new ▸ safely (pos, top) gone rfl
    · exact inv.incoming pos top other gone old
  | @store at_ env held =>
    refine { inv with toInv := base, above := ?_, incoming := ?_, everywhere := kept }
    · intro pos top other gone found
      rcases of_update_eq_some found with ⟨rfl, new⟩ | ⟨-, old⟩
      · exact Option.some.inj new ▸ inv.incoming pos top env gone held
      · exact inv.above pos top other gone old
    · intro pos top other gone found
      rcases of_update_eq_some found with ⟨-, new⟩ | ⟨-, old⟩
      · cases new
      · exact inv.incoming pos top other gone old
  | abort =>
    refine { inv with toInv := base, incoming := ?_ }
    intro pos top other gone found
    rcases of_update_eq_some found with ⟨-, new⟩ | ⟨-, old⟩
    · cases new
    · exact inv.incoming pos top other gone old
  | @draw node _ payload _ env made =>
    refine { inv with toInv := base, committed := ?_ }
    intro top other gone open_
    cases open_
    obtain ⟨tombstone, issued, -, rfl⟩ := inv.purged _ top gone
    exact made ▸ ((ordered tombstone (inv.issued tombstone issued)).lt node payload).le
  | @commit env open_ =>
    refine { inv with toInv := base, above := ?_, committed := ?_, everywhere := kept }
    · intro pos top other gone found
      rcases of_update_eq_some found with ⟨rfl, new⟩ | ⟨-, old⟩
      · exact Option.some.inj new ▸ inv.committed top env gone open_
      · exact inv.above pos top other gone old
    · exact fun _ _ _ none_ => by cases none_
  | rollback => exact { inv with toInv := base, committed := fun _ _ _ none_ => by cases none_ }
  | returnPut issued =>
    refine { inv with toInv := base, everywhere := ?_ }
    intro env member
    rcases mem_snoc.mp member with old | rfl
    · exact inv.everywhere env old
    · exact ⟨issued, safely⟩
  | @returnCas env member =>
    refine { inv with toInv := base, everywhere := ?_ }
    intro other listed
    rcases mem_snoc.mp listed with old | rfl
    · exact inv.everywhere other old
    · exact ⟨(inv.commits other member).1, safely⟩
  | @purge at_ _ tombstone found idle uncommitted =>
    -- at the purged position nothing is stored, open or about to be committed
    have elsewhere : ∀ {pos top}, (pos, top) ∈ s.purged ++ [(at_, tombstone.stamp)] →
        pos ≠ at_ → (pos, top) ∈ s.purged := by
      intro pos top gone apart
      rcases List.mem_append.mp gone with old | new
      · exact old
      · exact absurd (Prod.mk.inj (List.mem_singleton.mp new)).1 apart
    refine { inv with toInv := base, above := ?_, incoming := ?_, committed := ?_ }
    · intro pos top other gone held
      rcases of_update_eq_some held with ⟨-, new⟩ | ⟨apart, old⟩
      · cases new
      · exact inv.above pos top other (elsewhere gone apart) old
    · intro pos top other gone held
      have apart : pos ≠ at_ := by
        rintro rfl
        cases idle.symm.trans held
      exact inv.incoming pos top other (elsewhere gone apart) held
    · intro top other gone open_
      have apart : 0 ≠ at_ := by
        rintro rfl
        cases (uncommitted rfl).symm.trans open_
      exact inv.committed top other (elsewhere gone apart) open_

theorem payload_of_deleted (inv : PurgeInv c s) (empty : D.payload = [])
    (acked : ∀ pos < c.r, (D, pos) ∈ s.acked) (deleted : D ∈ s.issued)
    (newest : ∀ env ∈ s.issued, env.stamp ≤ D.stamp) {pos : Nat} (inside : pos < c.r)
    {env : Envelope} (stores : s.db pos = some env) : env.payload = [] := by
  have issued := inv.stored pos env stores
  -- the position has kept the delete, so what it stores is as new, and so is the delete
  have le : D.stamp ≤ env.stamp := by
    rcases inv.of_kept (inv.acked D pos (acked pos inside)) with
      ⟨held, -, found, le⟩ | ⟨tombstone, -, -, gone, le⟩
    · exact Option.some.inj (found.symm.trans stores) ▸ le
    · exact le.trans (inv.above pos _ env gone stores)
  rw [inv.eq_of_stamp_eq issued deleted (le_antisymm (newest env issued) le), empty]

end PurgeInv

/-- Two positions and writes to all, purging tombstones older than two ticks. -/
def duo : Config := ⟨2, .all, 2⟩

def putEverywhere : List Action :=
  [.put 0 3 [1], .compare 0 0 ⟨⟨3, 0⟩, [1]⟩, .store 0, .compare 1 1 ⟨⟨3, 0⟩, [1]⟩, .store 1,
    .returnPut ⟨⟨3, 0⟩, [1]⟩ 2]

def deleteEverywhere : List Action :=
  [.put 0 5 [], .compare 0 0 ⟨⟨5, 0⟩, []⟩, .store 0, .compare 1 1 ⟨⟨5, 0⟩, []⟩, .store 1,
    .returnPut ⟨⟨5, 0⟩, []⟩ 2]

def halfPurged : State :=
  (machine duo).endOf (PurgesSafely duo)
    (putEverywhere ++ deleteEverywhere ++ [.purge 0 9])
    (initial fun _ => 0)

/-- The delete returns after one of the two positions has stored it. -/
def shrunkDelete : State :=
  (machine duo).endOf anyAction
    (putEverywhere ++ [.put 0 5 [], .compare 0 0 ⟨⟨5, 0⟩, []⟩, .store 0,
      .returnPut ⟨⟨5, 0⟩, []⟩ 1, .purge 0 9])
    (initial fun _ => 0)

/-- The delete is a transaction's, stored at the first position only. -/
def narrowDelete : State :=
  (machine duo).endOf anyAction
    (putEverywhere ++ [.draw 0 5 [], .commit, .returnCas ⟨⟨5, 0⟩, []⟩, .purge 0 9])
    (initial fun _ => 0)

/-- The delete reaches both positions and both purge it; a repair of the put that was
scheduled before arrives at position 1. -/
def lateRepair : State :=
  (machine duo).endOf anyAction
    (putEverywhere ++ deleteEverywhere ++
      [.purge 0 9, .purge 1 9, .compare 1 1 ⟨⟨3, 0⟩, [1]⟩, .store 1])
    (initial fun _ => 0)

/-- A run ends in `s`, where a delete has returned and is the newest write, and a read that
hears both positions returns the value it deleted. -/
def Resurrected (s : State) : Prop :=
  (machine duo).Reaches anyAction (initial fun _ => 0) s ∧
    ⟨⟨5, 0⟩, []⟩ ∈ s.returned ∧ (∀ env ∈ s.issued, env.stamp ≤ ⟨5, 0⟩) ∧
    getReplicatedUnitOnce ⟨.all, false⟩ 2 [s.answer 0, s.answer 1] = .ok ⟨⟨3, 0⟩, [1]⟩

end Shale.Register
