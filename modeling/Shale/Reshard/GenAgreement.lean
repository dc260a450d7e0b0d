import Shale.Reshard.ArbiterAgreement
import Shale.Reshard.FirstBoot

/-!
# Generations follow the arbiter's epochs

A node steps one generation at a time and compares counts only, never epochs. So it stays on the
arbiter's course as long as the counts from its own generation to the agreed epoch all grow or all
shrink: then it is at the agreed count exactly if it is at the agreed epoch. The course turns where
an `Advance` splits after a merge or merges after a split. If every node is at the epoch whenever
it turns, and the arbiter was seeded with the marker's count, generations and counts agree in every
state reached.
-/

namespace Shale.NodeLoop

open Function

open Arbiter (Plan planNext Advanced)
open InitMarker (Marker)

variable {r : Nat} {s s' : State} {action : Action} {P : Nat → UnitCount → Prop}
  {agreed cur next : Arbiter.State Nat} {history : Nat → UnitCount} {gen : Nat} {count : UnitCount}

def Steps : Plan → UnitCount → UnitCount → Prop
  | .split, before, after => after.n = 2 * before.n
  | .merge, before, after => before.n = 2 * after.n
  | .none, _, _ => False

structure Follows (agreed : Arbiter.State Nat) (history : Nat → UnitCount) (gen : Nat)
    (count : UnitCount) : Prop where
  le : gen ≤ agreed.epoch
  at_gen : history gen = count
  straight : ∀ i, gen ≤ i → i < agreed.epoch → Steps agreed.plan (history i) (history (i + 1))

section

variable (follows : Follows agreed history gen count)
include follows

theorem Follows.grows (split : agreed.plan = .split) {i : Nat} (after : gen < i)
    (le : i ≤ agreed.epoch) : count.n < (history i).n := by
  induction i, after using Nat.le_induction with
  | base =>
    have twice := follows.straight gen le_rfl le
    rw [split, follows.at_gen] at twice
    have := count.pos
    rw [Nat.succ_eq_add_one, show (history (gen + 1)).n = _ from twice]
    omega
  | succ i after ih =>
    have twice := follows.straight i (by omega) le
    rw [split] at twice
    rw [show (history (i + 1)).n = _ from twice]
    omega

theorem Follows.shrinks (merge : agreed.plan = .merge) {i : Nat} (after : gen < i)
    (le : i ≤ agreed.epoch) : (history i).n < count.n := by
  induction i, after using Nat.le_induction with
  | base =>
    have twice := follows.straight gen le_rfl le
    rw [merge, follows.at_gen] at twice
    have := (history (gen + 1)).pos
    have : count.n = 2 * (history (gen + 1)).n := twice
    rw [Nat.succ_eq_add_one]
    omega
  | succ i after ih =>
    have twice := follows.straight i (by omega) le
    rw [merge] at twice
    have : (history i).n = 2 * (history (i + 1)).n := twice
    omega

theorem Follows.cases_of_lt (now : history agreed.epoch = agreed.count)
    (behind : gen < agreed.epoch) :
    agreed.plan = .split ∧ count.n < agreed.count.n ∨
      agreed.plan = .merge ∧ agreed.count.n < count.n := by
  cases plan : agreed.plan with
  | none =>
    have step := follows.straight gen le_rfl behind
    rw [plan] at step
    exact step.elim
  | split => exact .inl ⟨rfl, now ▸ follows.grows plan behind le_rfl⟩
  | merge => exact .inr ⟨rfl, now ▸ follows.shrinks plan behind le_rfl⟩

theorem Follows.gen_eq (now : history agreed.epoch = agreed.count) (same : count = agreed.count) :
    gen = agreed.epoch := by
  by_contra apart
  have behind : gen < agreed.epoch := by
    have := follows.le
    omega
  rcases follows.cases_of_lt now behind with ⟨-, less⟩ | ⟨-, less⟩ <;>
    · rw [same] at less
      exact Nat.lt_irrefl _ less

end

theorem Follows.enter {gs : GenState} (now : history agreed.epoch = agreed.count)
    (steady : gs.nextCount = none) (held : HeldBy (Follows agreed history) gs) :
    HeldBy (Follows agreed history) (reshardGenStep gs agreed).1 := by
  have follows := held.1
  have behind : gs.count ≠ agreed.count → gs.gen < agreed.epoch := by
    intro apart
    refine Nat.lt_of_le_of_ne follows.le fun same => apart ?_
    rw [← now, ← same, follows.at_gen]
  have entered : ∀ {later : UnitCount}, gs.gen < agreed.epoch → later = history (gs.gen + 1) →
      HeldBy (Follows agreed history) (gs.enter later) := by
    intro later less stepped
    refine ⟨follows, fun next moving => ?_⟩
    cases moving
    exact ⟨less, stepped.symm,
      fun i (from_next : gs.gen + 1 ≤ i) below => follows.straight i (by omega) below⟩
  simp only [reshardGenStep, steady]
  split
  case isTrue below =>
    split
    · exact held
    case h_2 double doubled =>
      have less := behind fun same => by simp [same] at below
      refine entered less (UnitCount.ext ?_)
      rcases follows.cases_of_lt now less with ⟨plan, -⟩ | ⟨-, above⟩
      · have twice := follows.straight gs.gen le_rfl less
        rw [plan, follows.at_gen] at twice
        rw [UnitCount.n_of_double doubled]
        exact twice.symm
      · omega
  case isFalse =>
    split
    case isTrue above =>
      split
      · exact held
      case h_2 half halved =>
        have less := behind fun same => by simp [same] at above
        refine entered less (UnitCount.ext ?_)
        rcases follows.cases_of_lt now less with ⟨-, below⟩ | ⟨plan, -⟩
        · omega
        · have twice := follows.straight gs.gen le_rfl less
          rw [plan, follows.at_gen] at twice
          have double := UnitCount.n_of_halve halved
          have : gs.count.n = 2 * (history (gs.gen + 1)).n := twice
          omega
    case isFalse => exact held

theorem steps_of_advanced (advanced : Advanced cur next) :
    Steps next.plan cur.count next.count := by
  rcases advanced.plan with ⟨-, twice, plan⟩ | ⟨-, twice, plan⟩
  · rw [plan]
    exact twice
  · rw [plan]
    exact twice

theorem Follows.advance (follows : Follows cur history gen count)
    (now : history cur.epoch = cur.count) (advanced : Advanced cur next)
    (straight : gen = cur.epoch ∨ next.plan = cur.plan) :
    Follows next (update history next.epoch next.count) gen count where
  le := by
    rw [advanced.epoch]
    exact Nat.le_succ_of_le follows.le
  at_gen := by
    have : gen ≠ next.epoch := by
      have := follows.le
      rw [advanced.epoch]
      omega
    rw [update_of_ne this, follows.at_gen]
  straight := by
    intro i from_gen below
    have old : i ≠ next.epoch := by omega
    rw [advanced.epoch] at below
    rw [update_of_ne old]
    by_cases last : i = cur.epoch
    · subst last
      rw [← advanced.epoch, update_self, now]
      exact steps_of_advanced advanced
    · have inside : i < cur.epoch := by omega
      have new : i + 1 ≠ next.epoch := by
        rw [advanced.epoch]
        omega
      rw [update_of_ne new]
      rcases straight with rfl | same
      · omega
      · rw [same]
        exact follows.straight i from_gen inside

def turns (agreed : Arbiter.State Nat) : Bool :=
  match planNext agreed with
  | .ok (some next) => agreed.plan != .none && next.plan != agreed.plan
  | _ => false

/-- The generation that a node is at. -/
def Phase.gen? : Phase → Option Nat
  | .down => none
  | .deferring gen _ | .waiting gen _ => some gen
  | .seeding gs | .serving gs _ => some gs.gen

def AllAt (s : State) (gen : Nat) : Prop :=
  (∀ m ∈ s.marker, m.gen = gen) ∧ ∀ node ∈ s.nodes, ∀ own ∈ node.phase.gen?, own = gen

instance (s : State) (gen : Nat) : Decidable (AllAt s gen) :=
  inferInstanceAs (Decidable ((∀ m ∈ s.marker, m.gen = gen) ∧
    ∀ node ∈ s.nodes, ∀ own ∈ node.phase.gen?, own = gen))

def TurnsTogether (s : State) : Action → Prop
  | .advance | .advanceArbiter _ => ∀ agreed ∈ s.arbiter, turns agreed → AllAt s agreed.epoch
  | _ => True

instance : DecidableRel TurnsTogether := fun s action =>
  match action with
  | .advance | .advanceArbiter _ =>
    inferInstanceAs (Decidable (∀ agreed ∈ s.arbiter, turns agreed → AllAt s agreed.epoch))
  | .seed _ | .boot _ | .deferRead .. | .reread .. | .crash _ | .retarget _ | .read _
  | .observe .. | .drive .. | .cut .. | .next _ | .advanceMarker _ | .commit _
  | .endTick _ => isTrue trivial

def OnCourse (s : State) (action : Action) : Prop :=
  SeedsMarker s action ∧ TurnsTogether s action

instance : DecidableRel OnCourse := fun s action =>
  inferInstanceAs (Decidable (SeedsMarker s action ∧ TurnsTogether s action))

theorem Consistent.at_gen (consistent : Consistent P s) (all : AllAt s gen)
    (bounded : ∀ {own count}, P own count → own ≤ gen) :
    Consistent (fun own count => P own count ∧ own = gen) s := by
  refine ⟨fun m stored => ⟨consistent.marker m stored, all.1 m stored⟩, fun node member => ?_⟩
  have held := consistent.nodes node member
  have own := all.2 node member
  cases phase : node.phase with
  | down => trivial
  | deferring gen count | waiting gen count =>
    rw [phase] at held own
    exact ⟨held, own _ rfl⟩
  | seeding gs | serving gs tick =>
    rw [phase] at held own
    have here := own _ rfl
    refine ⟨⟨held.1, here⟩, fun next moving => ?_⟩
    have := bounded (held.2 next moving)
    omega

theorem Consistent.advance (consistent : Consistent (Follows cur history) s)
    (now : history cur.epoch = cur.count) (planned : planNext cur = .ok (some next))
    (together : turns cur → AllAt s cur.epoch) :
    Consistent (Follows next (update history next.epoch next.count)) s := by
  have advanced := Arbiter.advanced_of_planNext planned
  by_cases turning : turns cur = true
  · exact (consistent.at_gen (together turning) Follows.le).mono
      fun ⟨follows, here⟩ => follows.advance now advanced (.inl here)
  · refine consistent.mono fun follows => follows.advance now advanced ?_
    simp only [turns, planned, Bool.and_eq_true, bne_iff_ne, ne_eq, not_and, not_not] at turning
    cases plan : cur.plan with
    | none =>
      refine .inl (by_contra fun apart => ?_)
      have step := follows.straight _ le_rfl (Nat.lt_of_le_of_ne follows.le apart)
      rw [plan] at step
      exact step
    | split | merge => exact .inr ((turning (by simp [plan])).trans plan)

/-- The states of runs on the course: before the founding, before the seed, and after it. -/
inductive Agreeing (s : State) : Prop where
  | fresh (marker : s.marker = none) (arbiter : s.arbiter = none)
      (consistent : Consistent (fun _ _ => False) s)
  | founded (founding : UnitCount) (marker : s.marker = some ⟨0, founding⟩)
      (arbiter : s.arbiter = none) (consistent : Consistent (AtFounding founding) s)
  | seeded (agreed : Arbiter.State Nat) (history : Nat → UnitCount) (marker : s.marker.isSome)
      (arbiter : s.arbiter = some agreed) (now : history agreed.epoch = agreed.count)
      (consistent : Consistent (Follows agreed history) s)

theorem agreeing_initial (unitCounts : List UnitCount) : Agreeing (initial unitCounts) := by
  cases booting_initial unitCounts with
  | fresh marker arbiter consistent => exact .fresh marker arbiter consistent
  | founded _ marker => cases marker

theorem Agreeing.of_founded {founding : UnitCount} (marker : s.marker = some ⟨0, founding⟩)
    (unseeded : s.arbiter = none) (consistent : Consistent (AtFounding founding) s)
    (matched : SeedsMarker s action) (stepped : (machine r).step action s = some s') :
    Agreeing s' := by
  have kept : Consistent (AtFounding founding) s' := by
    refine consistent.step stepped (fun count absent => ?_) fun n gs agreed _ present => ?_
    · rw [marker] at absent
      cases absent
    · rw [unseeded] at present
      cases present
  have stays := marker_isSome_of_step stepped (by rw [marker]; rfl)
  cases moves_of_step stepped with
  | keeps same =>
    exact .founded founding (marker_of_consistent kept stays) (same.trans unseeded) kept
  | seeds found _ absent seeded =>
    have same : founding = _ := matched absent _ found _ marker
    rw [← same] at seeded
    refine .seeded (.seed founding) (fun _ => founding) stays seeded rfl (kept.mono ?_)
    rintro gen count ⟨rfl, rfl⟩
    exact ⟨le_rfl, rfl, fun i _ below => absurd below (Nat.not_lt_zero i)⟩
  | retargets present | advances _ present =>
    rw [unseeded] at present
    cases present

theorem Agreeing.of_seeded (marker : s.marker.isSome) (present : s.arbiter = some agreed)
    (now : history agreed.epoch = agreed.count)
    (consistent : Consistent (Follows agreed history) s) (together : TurnsTogether s action)
    (stepped : (machine r).step action s = some s') : Agreeing s' := by
  have stays := marker_isSome_of_step stepped marker
  have marked : ∀ {P : Nat → UnitCount → Prop} count, s.marker = none →
      s'.marker = some ⟨0, count⟩ → P 0 count := by
    intro P count absent
    rw [absent] at marker
    cases marker
  have kept : Consistent (Follows agreed history) s' := by
    refine consistent.step stepped marked fun n gs read _ found held steady => ?_
    cases present.symm.trans found
    exact Follows.enter now steady held
  cases moves_of_step stepped with
  | keeps same => exact .seeded agreed history stays (same.trans present) now kept
  | seeds _ _ absent =>
    rw [absent] at present
    cases present
  | @retargets target cur found moved =>
    cases present.symm.trans found
    exact .seeded _ history stays moved now (kept.mono fun follows =>
      ⟨follows.le, follows.at_gen, follows.straight⟩)
  | @advances _ cur next turned found planned moved =>
    cases present.symm.trans found
    have turning : turns agreed → AllAt s agreed.epoch := by
      rcases turned with rfl | ⟨n, rfl⟩ <;> exact together agreed present
    -- an advance reads no tick, so no node enters a count in this step
    have ahead := (consistent.advance now planned turning).step stepped marked
      fun n _ _ reading => by rcases turned with rfl | ⟨m, rfl⟩ <;> cases reading
    exact .seeded next _ stays moved (update_self ..) ahead

theorem Agreeing.step (agreeing : Agreeing s) (permitted : OnCourse s action)
    (stepped : (machine r).step action s = some s') : Agreeing s' := by
  cases agreeing with
  | fresh absent unseeded consistent =>
    obtain ⟨still, ⟨marker, kept⟩ | ⟨founding, marker, kept⟩⟩ :=
      of_fresh_step unseeded consistent stepped
    · exact .fresh marker still kept
    · exact .founded founding marker still kept
  | founded founding marker unseeded consistent =>
    exact .of_founded marker unseeded consistent permitted.1 stepped
  | seeded agreed history marker present now consistent =>
    exact .of_seeded marker present now consistent permitted.2 stepped

/-- In every run on the course, a steady node at the agreed count is at the agreed epoch, and
steady nodes at one generation are at one count. -/
theorem generations_agree {unitCounts : List UnitCount}
    (reached : (machine r).Reaches OnCourse (initial unitCounts) s) :
    (∀ node ∈ s.nodes, ∀ gs tick agreed, node.phase = .serving gs tick →
        gs.nextCount = none → s.arbiter = some agreed → gs.count = agreed.count →
        gs.gen = agreed.epoch) ∧
      ∀ node ∈ s.nodes, ∀ node' ∈ s.nodes, ∀ gs gs' tick tick',
        node.phase = .serving gs tick → node'.phase = .serving gs' tick' →
        gs.nextCount = none → gs'.nextCount = none → gs.gen = gs'.gen → gs.count = gs'.count := by
  have agreeing : Agreeing s :=
    reached.invariant (agreeing_initial unitCounts)
      fun agreeing permitted stepped => agreeing.step permitted stepped
  have opened := arbiter_isSome_of_serving reached
  cases agreeing with
  | fresh _ unseeded | founded _ _ unseeded =>
    -- nobody has opened yet
    rw [unseeded] at opened
    refine ⟨fun node member gs tick agreed serving => ?_,
      fun node member node' _ gs gs' tick tick' serving => ?_⟩
    all_goals
      have := opened node member (by rw [serving]; rfl)
      cases this
  | seeded agreed history _ present now consistent =>
    have follows : ∀ node ∈ s.nodes, ∀ gs tick, node.phase = .serving gs tick →
        Follows agreed history gs.gen gs.count := by
      intro node member gs tick serving
      have held := consistent.nodes node member
      rw [serving] at held
      exact held.1
    refine ⟨?_, ?_⟩
    · intro node member gs tick read serving _ found same
      cases present.symm.trans found
      exact (follows node member gs tick serving).gen_eq now same
    · intro node member node' member' gs gs' tick tick' serving serving' _ _ same
      rw [← (follows node member gs tick serving).at_gen,
        ← (follows node' member' gs' tick' serving').at_gen, same]

def splitRun : List Action :=
  [.boot 0, .seed 0, .boot 1, .deferRead 1 true false, .seed 1, .retarget .two,
    .read 0, .advanceArbiter 0, .read 0, .read 1, .next 0, .next 1, .drive 0 0 0, .drive 1 0 1,
    .cut 1 0, .next 0, .observe 0 0, .next 0, .advanceMarker 0, .commit 0, .endTick 0,
    .next 1, .observe 1 0, .next 1, .advanceMarker 1, .commit 1, .endTick 1]

theorem split_reaches_epoch :
    let s := (machine 2).endOf OnCourse splitRun (initial [.one, .one])
    s.nodes = [⟨.one, .serving (.steady 1 .two) none⟩, ⟨.one, .serving (.steady 1 .two) none⟩] ∧
      s.arbiter = some ⟨1, .two, .two, .split⟩ ∧
      (GenState.steady 1 .two).gen = (Arbiter.State.mk 1 .two .two .split).epoch := by
  have reached := (machine 2).reaches_endOf OnCourse splitRun (initial [.one, .one]) (by decide)
  have nodes : ((machine 2).endOf OnCourse splitRun (initial [.one, .one])).nodes =
      [⟨.one, .serving (.steady 1 .two) none⟩, ⟨.one, .serving (.steady 1 .two) none⟩] := by
    decide
  have arbiter : ((machine 2).endOf OnCourse splitRun (initial [.one, .one])).arbiter =
      some ⟨1, .two, .two, .split⟩ := by decide
  have member : (⟨.one, .serving (.steady 1 .two) none⟩ : Node) ∈
      ((machine 2).endOf OnCourse splitRun (initial [.one, .one])).nodes := by simp [nodes]
  exact ⟨nodes, arbiter,
    (generations_agree reached).1 _ member _ _ _ rfl rfl arbiter rfl⟩

/-- Node 2 opens with the others and sleeps while they carry the split through and the arbiter
merges back. -/
def sleepRun : List Action :=
  splitRun.take 5 ++ [.boot 2, .deferRead 2 true false, .seed 2] ++ splitRun.drop 5 ++
    [.retarget .one, .read 0, .advanceArbiter 0]

/-- The sleeper is steady at the agreed count, two generations behind the agreed epoch. -/
theorem sleeper_behind_epoch :
    ∃ s, (machine 2).Reaches SeedsMarker (initial [.one, .one, .one]) s ∧
      s.arbiter = some ⟨2, .one, .one, .merge⟩ ∧
      s.nodes[2]? = some ⟨.one, .serving (.steady 0 .one) none⟩ :=
  (machine 2).exists_reaches_of_run _ sleepRun _ _ (by decide)

end Shale.NodeLoop
