import Shale.Foundation.Quorum
import Shale.Replication.QuorumRead
import Shale.Replication.Register

/-!
# Runs in which the copies of a key only rise

If no node draws stamps for a key at the ceiling of its clock, the owner is ahead of the key
when a commit draws its stamp, and a commit stores over older envelopes only and not into the
middle of an apply, then the copies of the key only move upwards: a position that has acked
an envelope keeps that stamp or a higher one, until it purges a tombstone at least as new.
-/

namespace Shale.Register

open List Function

open Position (nextStamp maxStamp)

variable {c : Config} {s s' : State} {action : Action} {pos : Nat} {env : Envelope} {stamp : Stamp}

def Fresh (s : State) (env : Envelope) : Prop := ∀ old ∈ s.drawn, old.stamp < env.stamp

/-- A clock with this high-water mark that reads this wall time is ahead of an envelope: the
wall time is later, or the clock has seen its timestamp and is below the ceiling. -/
def Ahead (mark wall : Nat) (old : Envelope) : Prop :=
  old.stamp.timestamp < wall ∨ old.stamp.timestamp ≤ mark ∧ mark ≠ maxStamp

instance (mark wall : Nat) (old : Envelope) : Decidable (Ahead mark wall old) :=
  inferInstanceAs (Decidable (_ ∨ _))

theorem Ahead.lt {mark wall : Nat} {old : Envelope} (ahead : Ahead mark wall old) (node : Nat)
    (payload : Bytes) : old.stamp < (⟨⟨nextStamp mark wall, node⟩, payload⟩ : Envelope).stamp := by
  left
  dsimp only
  rcases ahead with later | ⟨seen, below⟩
  · unfold nextStamp
    split_ifs <;> omega
  · exact lt_of_le_of_lt seen (Position.lt_nextStamp below wall)

def State.ownerMark (s : State) (node : Nat) : Nat :=
  max (s.clock node) (storedTimestamp (s.db 0))

/-- A put after the first is stamped below the ceiling; the clock that a commit draws its stamp
from is ahead of every write of the key; and when the commit stores, no apply at the owner's
position has won its compare, and what is stored there is older. -/
def Ordered (s : State) : Action → Prop
  | .put node _ _ => s.drawn ≠ [] → s.clock node ≠ maxStamp
  | .draw node wall _ => ∀ old ∈ s.drawn, Ahead (s.ownerMark node) wall old
  | .commit => s.opened 0 = none ∧ ∀ env ∈ s.committing, appliesOver (s.db 0) env = true
  | _ => True

instance : DecidableRel Ordered := fun s action => by
  cases action <;> unfold Ordered <;> infer_instance

def Kept (s : State) (pos : Nat) (stamp : Stamp) : Prop :=
  (∃ env, s.db pos = some env ∧ stamp ≤ env.stamp) ∨ ∃ top, (pos, top) ∈ s.purged ∧ stamp ≤ top

theorem le_of_not_appliesOver {stored : Option Envelope} (older : appliesOver stored env = false) :
    ∃ top, stored = some top ∧ env.stamp ≤ top.stamp := by
  cases stored with
  | none => cases older
  | some top =>
    refine ⟨top, rfl, ?_⟩
    rw [← not_lt, ← Stamp.greater_iff, Bool.not_eq_true]
    exact older

variable {at_ : Nat}

variable {contents : Nat → Option Envelope} {other : Nat} {entry : Option Envelope}

theorem of_update_eq_some (found : update contents at_ entry other = some env) :
    other = at_ ∧ entry = some env ∨ other ≠ at_ ∧ contents other = some env := by
  by_cases same : other = at_
  · subst same
    exact .inl ⟨rfl, by simpa using found⟩
  · exact .inr ⟨same, by simpa [same] using found⟩

theorem appliesOver_update (apart : other ≠ at_) (newer : appliesOver (contents other) env = true) :
    appliesOver (update contents at_ entry other) env = true := by
  rwa [update_of_ne apart]

theorem Kept.update (kept : Kept s pos stamp) (newer : appliesOver (s.db at_) env = true)
    (stored : s'.db = update s.db at_ (some env)) (purged : s'.purged = s.purged) :
    Kept s' pos stamp := by
  rcases kept with ⟨held, found, le⟩ | ⟨top, gone, le⟩
  · by_cases same : pos = at_
    · subst same
      rw [found] at newer
      refine .inl ⟨env, by rw [stored, update_self], ?_⟩
      exact le.trans (Stamp.greater_iff.mp newer).le
    · exact .inl ⟨held, by rw [stored, update_of_ne same, found], le⟩
  · exact .inr ⟨top, purged ▸ gone, le⟩

theorem Kept.of_store (stored : s'.db = Function.update s.db pos (some env)) :
    Kept s' pos env.stamp :=
  .inl ⟨env, by rw [stored, update_self], le_rfl⟩

theorem Kept.purge (kept : Kept s pos stamp) (found : s.db at_ = some env)
    (stored : s'.db = Function.update s.db at_ none)
    (purged : s'.purged = s.purged ++ [(at_, env.stamp)]) : Kept s' pos stamp := by
  rcases kept with ⟨held, holds, le⟩ | ⟨top, gone, le⟩
  · by_cases same : pos = at_
    · subst same
      obtain rfl := Option.some.inj (holds.symm.trans found)
      exact .inr ⟨held.stamp, by rw [purged]; simp, le⟩
    · exact .inl ⟨held, by rw [stored, update_of_ne same, holds], le⟩
  · exact .inr ⟨top, by rw [purged]; simp [gone], le⟩

/-- What holds in every state of an `Ordered` run. -/
structure Inv (s : State) : Prop where
  distinct : s.drawn.Pairwise fun old new => old.stamp ≠ new.stamp
  clocked : ∀ env ∈ s.drawn, env.stamp.timestamp ≤ s.clock env.stamp.node
  issued : ∀ env ∈ s.issued, env ∈ s.drawn
  stored : ∀ pos env, s.db pos = some env → env ∈ s.issued
  opened : ∀ pos env, s.opened pos = some env → env ∈ s.issued ∧ appliesOver (s.db pos) env = true
  committing : ∀ env, s.committing = some env →
    env ∈ s.drawn ∧ ∀ old ∈ s.commits, old.stamp < env.stamp
  commits : ∀ env ∈ s.commits, env ∈ s.issued ∧ (env, 0) ∈ s.acked
  serial : s.commits.Pairwise fun old new => old.stamp < new.stamp
  acked : ∀ env pos, (env, pos) ∈ s.acked → Kept s pos env.stamp
  purged : ∀ pos top, (pos, top) ∈ s.purged → ∃ env ∈ s.issued, env.payload = [] ∧ env.stamp = top

namespace Inv

theorem initial (clock : Nat → Nat) : Inv (initial clock) where
  distinct := List.Pairwise.nil
  clocked := fun _ member => by cases member
  issued := fun _ member => by cases member
  stored := fun _ _ held => by cases held
  opened := fun _ _ held => by cases held
  committing := fun _ open_ => by cases open_
  commits := fun _ member => by cases member
  serial := List.Pairwise.nil
  acked := fun _ _ member => by cases member
  purged := fun _ _ member => by cases member

variable {clock : Nat → Nat}

section

variable (inv : Inv s)
include inv

theorem clocked_of_le (rises : s.clock ≤ clock) :
    ∀ env ∈ s.drawn, env.stamp.timestamp ≤ clock env.stamp.node :=
  fun env member => (inv.clocked env member).trans (rises _)

theorem draws (new : ∀ old ∈ s.drawn, old.stamp ≠ env.stamp) (rises : s.clock ≤ clock)
    (noted : env.stamp.timestamp ≤ clock env.stamp.node) :
    ((s.drawn ++ [env]).Pairwise fun old new => old.stamp ≠ new.stamp) ∧
      ∀ other ∈ s.drawn ++ [env], other.stamp.timestamp ≤ clock other.stamp.node := by
  rw [pairwise_append]
  refine ⟨⟨inv.distinct, pairwise_singleton _ _, fun old member last found =>
    mem_singleton.mp found ▸ new old member⟩, fun other member => ?_⟩
  rcases mem_append.mp member with old | last
  · exact inv.clocked_of_le rises other old
  · exact mem_singleton.mp last ▸ noted

theorem new_of_put {node wall : Nat} {payload : Bytes}
    (below : s.drawn ≠ [] → s.clock node ≠ maxStamp) :
    ∀ old ∈ s.drawn, old.stamp ≠ (s.putEnvelope node wall payload).stamp := by
  intro old mem same
  have later := Position.lt_nextStamp (below (ne_nil_of_mem mem)) wall
  have seen := inv.clocked old mem
  rw [same] at seen
  exact absurd seen later.not_ge

theorem put (new : ∀ old ∈ s.drawn, old.stamp ≠ env.stamp) (rises : s.clock ≤ clock)
    (noted : env.stamp.timestamp ≤ clock env.stamp.node) :
    Inv { s with clock, drawn := s.drawn ++ [env], issued := s.issued ++ [env] } where
  distinct := (inv.draws new rises noted).1
  clocked := (inv.draws new rises noted).2
  issued := by
    intro env member
    simp only [mem_append] at member ⊢
    exact member.imp_left (inv.issued env)
  stored := fun pos env held => mem_append_left _ (inv.stored pos env held)
  opened := fun pos env held => (inv.opened pos env held).imp_left (mem_append_left _)
  committing := fun env open_ => (inv.committing env open_).imp_left (mem_append_left _)
  commits := fun env member => (inv.commits env member).imp_left (mem_append_left _)
  serial := inv.serial
  acked := inv.acked
  purged := by
    intro pos top member
    obtain ⟨env, issued, tomb⟩ := inv.purged pos top member
    exact ⟨env, mem_append_left _ issued, tomb⟩

theorem wins (issued : env ∈ s.issued) (newer : appliesOver (s.db pos) env = true)
    (rises : s.clock ≤ clock) :
    Inv { s with clock, opened := update s.opened pos (some env) } :=
  { inv with
    clocked := inv.clocked_of_le rises
    opened := by
      intro other incoming held
      rcases of_update_eq_some held with ⟨rfl, new⟩ | ⟨-, old⟩
      · exact Option.some.inj new ▸ ⟨issued, newer⟩
      · exact inv.opened other incoming old }

theorem loses (older : appliesOver (s.db pos) env = false) (rises : s.clock ≤ clock) :
    Inv { s with clock, acked := s.acked ++ [(env, pos)] } :=
  { inv with
    clocked := inv.clocked_of_le rises
    commits := fun env member => (inv.commits env member).imp_right (mem_append_left _)
    acked := by
      intro other at_ member
      rcases mem_append.mp member with old | new
      · exact inv.acked other at_ old
      · cases mem_singleton.mp new
        exact .inl (le_of_not_appliesOver older) }

theorem abort (pos : Nat) : Inv { s with opened := update s.opened pos none } :=
  { inv with
    opened := by
      intro other incoming held
      rcases of_update_eq_some held with ⟨-, new⟩ | ⟨-, old⟩
      · cases new
      · exact inv.opened other incoming old }

theorem store (held : s.opened pos = some env) :
    Inv { s with
      db := update s.db pos (some env)
      opened := update s.opened pos none
      acked := s.acked ++ [(env, pos)] } := by
  obtain ⟨issued, newer⟩ := inv.opened pos env held
  refine { inv with stored := ?_, opened := ?_, commits := ?_, acked := ?_ }
  · intro other stored found
    rcases of_update_eq_some found with ⟨-, new⟩ | ⟨-, old⟩
    · exact Option.some.inj new ▸ issued
    · exact inv.stored other stored old
  · intro other incoming found
    rcases of_update_eq_some found with ⟨-, new⟩ | ⟨apart, old⟩
    · cases new
    · exact (inv.opened other incoming old).imp_right (appliesOver_update apart)
  · exact fun other member => (inv.commits other member).imp_right (mem_append_left _)
  · intro other at_ member
    rcases mem_append.mp member with old | new
    · exact (inv.acked other at_ old).update newer rfl rfl
    · cases mem_singleton.mp new
      exact .of_store rfl

theorem draw (fresh : Fresh s env) (rises : s.clock ≤ clock)
    (noted : env.stamp.timestamp ≤ clock env.stamp.node) :
    Inv { s with clock, committing := some env, drawn := s.drawn ++ [env] } :=
  { inv with
    distinct := (inv.draws (fun old member => (fresh old member).ne) rises noted).1
    clocked := (inv.draws (fun old member => (fresh old member).ne) rises noted).2
    issued := fun env member => mem_append_left _ (inv.issued env member)
    committing := by
      intro env open_
      cases open_
      exact ⟨by simp, fun old member => fresh old (inv.issued old (inv.commits old member).1)⟩ }

theorem commit (open_ : s.committing = some env) (idle : s.opened 0 = none)
    (newer : appliesOver (s.db 0) env = true) :
    Inv { s with
      db := update s.db 0 (some env)
      committing := none
      issued := s.issued ++ [env]
      commits := s.commits ++ [env]
      acked := s.acked ++ [(env, 0)] } where
  distinct := inv.distinct
  clocked := inv.clocked
  issued := by
    intro other mem
    rcases mem_append.mp mem with old | new
    · exact inv.issued other old
    · exact mem_singleton.mp new ▸ (inv.committing env open_).1
  stored := by
    intro other stored found
    rcases of_update_eq_some found with ⟨-, new⟩ | ⟨-, old⟩
    · simp [Option.some.inj new]
    · exact mem_append_left _ (inv.stored other stored old)
  opened := by
    intro other incoming held
    have apart : other ≠ 0 := by
      rintro rfl
      cases idle.symm.trans held
    exact (inv.opened other incoming held).imp (mem_append_left _) (appliesOver_update apart)
  committing := fun _ none_ => by cases none_
  commits := by
    intro other mem
    rcases mem_snoc.mp mem with old | rfl
    · exact (inv.commits other old).imp (mem_append_left _) (mem_append_left _)
    · exact ⟨by simp, by simp⟩
  serial := by
    rw [pairwise_append]
    exact ⟨inv.serial, pairwise_singleton _ _, fun old mem new last =>
      mem_singleton.mp last ▸ (inv.committing env open_).2 old mem⟩
  acked := by
    intro other at_ mem
    rcases mem_append.mp mem with old | new
    · exact (inv.acked other at_ old).update newer rfl rfl
    · cases mem_singleton.mp new
      exact .of_store rfl
  purged := by
    intro pos top mem
    obtain ⟨tomb, issued, shape⟩ := inv.purged pos top mem
    exact ⟨tomb, mem_append_left _ issued, shape⟩

theorem purge (found : s.db pos = some env) (tombstone : env.payload = [])
    (idle : s.opened pos = none) :
    Inv { s with
      db := update s.db pos none
      purged := s.purged ++ [(pos, env.stamp)] } :=
  { inv with
    stored := by
      intro other stored held
      rcases of_update_eq_some held with ⟨-, new⟩ | ⟨-, old⟩
      · cases new
      · exact inv.stored other stored old
    opened := by
      intro other incoming held
      have apart : other ≠ pos := by
        rintro rfl
        cases idle.symm.trans held
      exact (inv.opened other incoming held).imp_right (appliesOver_update apart)
    acked := fun other at_ member => (inv.acked other at_ member).purge found rfl rfl
    purged := by
      intro other top member
      rcases mem_append.mp member with old | new
      · exact inv.purged other top old
      · obtain ⟨rfl, rfl⟩ := Prod.mk.inj (mem_singleton.mp new)
        exact ⟨env, inv.stored other env found, tombstone, rfl⟩ }

section

variable (ordered : Ordered s action) (stepped : Register.step c action s = some s')
include ordered stepped

theorem step :
    Inv s' := by
  cases effect_of_step c stepped with
  | put made rises noted =>
    subst made
    exact inv.put (inv.new_of_put ordered) rises noted
  | wins issued newer rises => exact inv.wins issued newer rises
  | loses issued older rises => exact inv.loses older rises
  | store held => exact inv.store held
  | abort => exact inv.abort _
  | @draw node _ payload _ _ made rises noted =>
    subst made
    exact inv.draw (fun old member => (ordered old member).lt node payload) rises noted
  | @commit env open_ => exact inv.commit open_ ordered.1 (ordered.2 env open_)
  | rollback => exact { inv with committing := fun _ none_ => by cases none_ }
  | returnPut | returnCas => exact { inv with }
  | purge found idle uncommitted tombstone => exact inv.purge found tombstone idle
  | observe rises => exact { inv with clocked := inv.clocked_of_le rises }

theorem kept_step (kept : Kept s pos stamp) : Kept s' pos stamp := by
  cases effect_of_step c stepped with
  | @store at_ env held => exact kept.update (inv.opened at_ env held).2 rfl rfl
  | @commit env open_ => exact kept.update (ordered.2 env open_) rfl rfl
  | purge found => exact kept.purge found rfl rfl
  | _ => exact kept

end

theorem eq_of_stamp_eq {one other : Envelope} (issued : one ∈ s.issued) (issued' : other ∈ s.issued)
    (same : one.stamp = other.stamp) : one = other := by
  have distinct : (s.drawn.map Envelope.stamp).Nodup := by
    rw [List.Nodup, pairwise_map]
    exact inv.distinct
  exact inj_on_of_nodup_map distinct (inv.issued _ issued) (inv.issued _ issued') same

theorem of_kept (kept : Kept s pos stamp) :
    (∃ env ∈ s.issued, s.db pos = some env ∧ stamp ≤ env.stamp) ∨
      ∃ env ∈ s.issued, env.payload = [] ∧ (pos, env.stamp) ∈ s.purged ∧ stamp ≤ env.stamp := by
  rcases kept with ⟨env, found, le⟩ | ⟨top, gone, le⟩
  · exact .inl ⟨env, inv.stored pos env found, found, le⟩
  · obtain ⟨env, issued, tombstone, rfl⟩ := inv.purged pos top gone
    exact .inr ⟨env, issued, tombstone, gone, le⟩

end

end Inv

/-- The owner's clock is ahead of every write of the key when a commit draws its stamp, and
no apply at the owner's position has won its compare when the commit stores. -/
def OwnerAhead (s : State) : Action → Prop
  | .draw node wall _ => ∀ old ∈ s.drawn, Ahead (s.ownerMark node) wall old
  | .commit => s.opened 0 = none
  | _ => True

instance : DecidableRel OwnerAhead := fun s action => by
  cases action <;> unfold OwnerAhead <;> infer_instance

def Action.isPut : Action → Bool
  | .put .. => true
  | _ => false

structure SerialInv (s : State) : Prop extends Inv s where
  rising : s.issued.Pairwise fun old new => old.stamp < new.stamp
  latest : ∀ env, s.committing = some env → ∀ old ∈ s.issued, old.stamp < env.stamp

theorem SerialInv.initial (clock : Nat → Nat) : SerialInv (initial clock) where
  toInv := .initial clock
  rising := List.Pairwise.nil
  latest := fun _ open_ => by cases open_

theorem SerialInv.rising_append (inv : SerialInv s)
    (above : ∀ old ∈ s.issued, old.stamp < env.stamp) :
    (s.issued ++ [env]).Pairwise fun old new => old.stamp < new.stamp := by
  rw [pairwise_append]
  exact ⟨inv.rising, pairwise_singleton _ _,
    fun old mem new last => mem_singleton.mp last ▸ above old mem⟩

theorem SerialInv.ordered (inv : SerialInv s) (ahead : OwnerAhead s action)
    (first : action.isPut = true → s.drawn = []) : Ordered s action := by
  cases action with
  | put node wall payload => exact fun later => absurd (first rfl) later
  | draw node wall payload => exact ahead
  | commit =>
    refine ⟨ahead, fun env open_ => ?_⟩
    cases found : s.db 0 with
    | none => rfl
    | some old =>
      exact Stamp.greater_iff.mpr (inv.latest env open_ old (inv.stored 0 old found))
  | _ => trivial

theorem SerialInv.step (inv : SerialInv s) (ahead : OwnerAhead s action)
    (first : action.isPut = true → s.drawn = [])
    (stepped : Register.step c action s = some s') : SerialInv s' := by
  have base : Inv s' := inv.toInv.step (inv.ordered ahead first) stepped
  suffices (s'.issued.Pairwise fun old new => old.stamp < new.stamp) ∧
      ∀ env, s'.committing = some env → ∀ old ∈ s'.issued, old.stamp < env.stamp from
    { base with rising := this.1, latest := this.2 }
  cases effect_of_step c stepped with
  | put =>
    -- a put comes first, so nothing is issued and no commit is open
    have undrawn : ∀ env, env ∉ s.drawn := by simp [first rfl]
    exact ⟨inv.rising_append fun old issued => absurd (inv.issued old issued) (undrawn old),
      fun env open_ => absurd (inv.committing env open_).1 (undrawn env)⟩
  | @draw node _ payload _ new made =>
    refine ⟨inv.rising, fun env open_ old issued => ?_⟩
    cases open_
    exact made ▸ (ahead old (inv.issued old issued)).lt node payload
  | @commit env open_ =>
    exact ⟨inv.rising_append (inv.latest env open_), fun _ none_ => by cases none_⟩
  | rollback => exact ⟨inv.rising, fun _ none_ => by cases none_⟩
  | _ => exact ⟨inv.rising, inv.latest⟩

/-- The history of one state continues that of another. -/
structure Extends (s s' : State) : Prop where
  issued : s.issued <+: s'.issued
  commits : s.commits <+: s'.commits
  acked : s.acked <+: s'.acked

theorem Extends.refl (s : State) : Extends s s :=
  ⟨prefix_rfl, prefix_rfl, prefix_rfl⟩

theorem extends_of_step (stepped : step c action s = some s') : Extends s s' := by
  cases effect_of_step c stepped with
  | put => exact { Extends.refl s with issued := prefix_append _ _ }
  | commit => exact ⟨prefix_append _ _, prefix_append _ _, prefix_append _ _⟩
  | loses | store => exact { Extends.refl s with acked := prefix_append _ _ }
  | _ => exact { Extends.refl s with }

theorem extends_of_reaches {allowed : State → Action → Prop}
    (reached : (machine c).Reaches allowed s s') : Extends s s' := by
  refine reached.invariant (.refl s) fun before _ stepped => ?_
  have grown := extends_of_step stepped
  exact ⟨before.issued.trans grown.issued, before.commits.trans grown.commits,
    before.acked.trans grown.acked⟩

def State.answer (s : State) (pos : Nat) : LegAnswer := (s.db pos).elim .notFound .value

theorem answer_eq_value : s.answer pos = .value env ↔ s.db pos = some env := by
  unfold State.answer
  cases s.db pos <;> simp

/-- The legs of a sweep: a leg that answers tells what its own position stores at some time. -/
structure SweepOf (times : State → Prop) (r : Nat) (legs : List (Nat × LegAnswer)) : Prop where
  placed : ∀ leg ∈ legs, leg.1 < r
  read : ∀ leg ∈ legs, leg.2.answered = true → ∃ seen, times seen ∧ leg.2 = seen.answer leg.1

theorem SweepOf.exists_answered {times : State → Prop} {r : Nat} {legs : List (Nat × LegAnswer)}
    (sweep : SweepOf times r legs) (distinct : (legs.map Prod.fst).Nodup)
    {positions : List Nat} (different : positions.Nodup)
    (inRange : ∀ pos ∈ positions, pos < r)
    (many : r < positions.length + (legs.map Prod.snd).countP LegAnswer.answered) :
    ∃ leg ∈ legs, leg.1 ∈ positions ∧ leg.2.answered = true := by
  let heard := (legs.filter fun leg => leg.2.answered).map Prod.fst
  have sub : heard.Sublist (legs.map Prod.fst) := filter_sublist.map Prod.fst
  have count : heard.length = (legs.map Prod.snd).countP LegAnswer.answered := by
    rw [countP_map, length_map, ← countP_eq_length_filter]
    rfl
  obtain ⟨pos, chosen, member⟩ := exists_mem_of_lt different (sub.nodup distinct) inRange
    (fun pos member => by
      obtain ⟨leg, asked, rfl⟩ := mem_map.mp (sub.subset member)
      exact sweep.placed leg asked)
    (count ▸ many)
  obtain ⟨leg, kept, rfl⟩ := mem_map.mp member
  exact ⟨leg, (mem_filter.mp kept).1, chosen, (mem_filter.mp kept).2⟩

end Shale.Register
