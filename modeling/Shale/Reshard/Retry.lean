import Shale.Reshard.Bisect

/-!
# A reshard that fails, and the next one

The inline `Reshard` of `multibackend_reshard.go` as a sequence of bisects that stops at the
first error. It undoes nothing but the open of the low child when the high one cannot be opened:
the routing state keeps the doubled count and the units that have cut over, and a bisect that
fails after its children are open leaves them open and mounted.
-/

namespace Shale.Bisect

open Fallible.Ends Function

open SingleNode (State Request copyTarget HoldsAcked)

def desiredGenUnits (gs : GenState) : List GenUnit :=
  (List.range gs.count.n).flatMap fun u =>
    { gen := gs.gen, id := u } ::
      match gs.nextCount with
      | none => []
      | some next =>
        if next.n > gs.count.n then
          match childUnits u gs.count with
          | .error _ => []
          | .ok (low, high) =>
            [{ gen := gs.gen + 1, id := low }, { gen := gs.gen + 1, id := high }]
        else []

namespace Node

variable (node : Node)

def acquireUnit (unit : GenUnit) : Node :=
  if unit ∈ node.held then node
  else { node with toState := node.toState.mountFresh unit, held := insert unit node.held }

def releaseUnit (unit : GenUnit) : Node := (node.unmount unit).closeUnit unit

def reconcileUnits : Node :=
  let desired := desiredGenUnits node.gs
  let mounted := node.mounts.keys
  let released := (mounted.filter (· ∉ desired)).foldl releaseUnit node
  let acquired := (desired.filter (· ∉ mounted)).foldl acquireUnit released
  { acquired with held := acquired.held.filter fun unit =>
      unit ∈ acquired.mounts.keys ∨ unit ∈ desired }

end Node

variable (hash : Bytes → ShardHash) (env : Env)

def reshard : Fallible Node ReshardError Unit := do
  let start ← get
  match start.gs.count.double with
  | .error message => throw (.double message)
  | .ok next => do
      modify fun node => { node with gs := node.gs.enter next, log := [] }
      Fallible.forEach (fun _ k => bisectUnit hash env start.gs.gen k start.gs.count next) 0
        (start.toState.mountedOldUnits start.gs.gen)
      modify fun node => { node with gs := start.gs.advance next }
      modify Node.reconcileUnits

/-- Every key can be read: the units that have not cut over and the children of those that have
are mounted, and each key's unit holds the effect of the last acked write. -/
structure Serving (hash : Bytes → ShardHash) (next : UnitCount) (node : Node) : Prop where
  doubled : node.gs.count.double = .ok next
  entered : node.gs.cutOver.Nonempty → node.gs.nextCount = some next
  parents : ∀ k < node.gs.count.n, k ∉ node.gs.cutOver →
    node.isMounted { gen := node.gs.gen, id := k } = true
  children : ∀ k ∈ node.gs.cutOver,
    node.isMounted { gen := node.gs.gen + 1, id := k } = true ∧
      node.isMounted { gen := node.gs.gen + 1, id := k + node.gs.count.n } = true
  acked : HoldsAcked hash node.toState

/-- A reshard can go on: the mounted units of the generation are those that have not cut over,
and no child of them is open. -/
structure Retryable (node : Node) : Prop where
  retired : ∀ k, node.isMounted { gen := node.gs.gen, id := k } = true →
    k < node.gs.count.n ∧ k ∉ node.gs.cutOver
  closed : ∀ k < node.gs.count.n, k ∉ node.gs.cutOver →
    { gen := node.gs.gen + 1, id := k } ∉ node.held ∧
      { gen := node.gs.gen + 1, id := k + node.gs.count.n } ∉ node.held

def Clean (env : Env) (node : Node) : Prop := ∀ site ∈ node.log, env.fails site = false

def Faulted (env : Env) (isOpen : Bool) (node : Node) : Prop :=
  (∃ site ∈ node.log, env.fails site = true) ∧
    ∀ site ∈ node.log, env.fails site = true → site.isOpen = isOpen

variable {hash env} {node after : Node} {gs : GenState} {next : UnitCount} {k : Nat}

namespace Serving

section

variable (serving : Serving hash next node)
include serving

theorem of_frame (gs : after.gs = node.gs)
    (mounts : ∀ unit, node.isMounted unit = true → after.isMounted unit = true)
    (acked : HoldsAcked hash after.toState) : Serving hash next after := by
  refine ⟨?_, ?_, ?_, ?_, acked⟩
  · rw [gs]
    exact serving.doubled
  · rw [gs]
    exact serving.entered
  · rw [gs]
    exact fun k below stays => mounts _ (serving.parents k below stays)
  · rw [gs]
    exact fun k moved => (serving.children k moved).imp (mounts _) (mounts _)

theorem serveAll (requests : List Request) : Serving hash next (serveAll hash requests node) := by
  have frame := sameFrame_serveAll requests hash node
  refine serving.of_frame frame.gs (fun unit mounted => ?_)
    (holdsAcked_serveAll requests serving.acked)
  unfold Node.isMounted
  rw [frame.mounts]
  exact mounted

theorem resolves (h : ShardHash) : node.isMounted (node.gs.resolveGenUnit h) = true := by
  by_cases moved : unitForHash h node.gs.count ∈ node.gs.cutOver
  · rw [GenState.resolveGenUnit_next moved (serving.entered ⟨_, moved⟩)]
    obtain ⟨low, high⟩ := serving.children _ moved
    rcases unitForHash_double_mem_childUnits (UnitCount.n_of_double serving.doubled) h with
      child | child
    · rw [child]
      exact low
    · rw [child]
      exact high
  · rw [GenState.resolveGenUnit_old moved]
    exact serving.parents _ (unitForHash_lt _ _) moved

theorem get_eq (key : Bytes) : SingleNode.get hash node.toState key = .value (node.acked key) := by
  have mounted := serving.resolves (hash key)
  unfold Node.isMounted at mounted
  unfold SingleNode.get
  rw [if_pos mounted, serving.acked key]

theorem update_child (splitting : Splitting node.gs next k) {id : Nat}
    (belongs : id % node.gs.count.n = k) (store : Store Bytes) :
    Serving hash next { node with db := update node.db ⟨node.gs.gen + 1, id⟩ store } := by
  refine serving.of_frame rfl (fun _ mounted => mounted) fun key => ?_
  have apart := SingleNode.resolveGenUnit_ne_child (h := hash key) splitting.entered
    splitting.twice splitting.waiting belongs
  change (update node.db _ store (node.gs.resolveGenUnit (hash key))).get key = _
  rw [update_of_ne apart]
  exact serving.acked key

end

end Serving

variable {pause : Option Nat} {site : Site} {err : ReshardError} {inv : Node → Prop}
  {old : UnitCount}

theorem call_clean :
    Fallible.Keeps (Clean env) (Faulted env site.isOpen) (call hash env pause site err) := by
  have logged : ∀ node, Clean env node →
      ∀ made ∈ ((meanwhile hash env pause site node).record site).log, made ≠ site →
        env.fails made = false := by
    intro node clean made mem other
    have earlier := (List.mem_cons.mp mem).resolve_left other
    rw [(sameFrame_meanwhile hash env pause site node).log] at earlier
    exact clean made earlier
  refine call_ends (fun node clean passed made mem => ?_)
    fun node clean failed => ⟨⟨site, List.mem_cons_self, failed⟩, fun made mem bad => ?_⟩
  · by_cases same : made = site
    · rw [same, passed]
    · exact logged node clean made mem same
  · by_contra other
    rw [logged node clean made mem fun same => other (same ▸ rfl)] at bad
    cases bad

theorem call_logs
    (served : ∀ site node, inv node → inv ((meanwhile hash env pause site node).record site)) :
    Fallible.Keeps (fun node => inv node ∧ Clean env node)
      (fun node => inv node ∧ Faulted env site.isOpen node) (call hash env pause site err) :=
  (call_keeps served).and call_clean

/-- A node in the middle of a bisect: it serves, with this routing, these mounts and these
handles. -/
structure Working (hash : Bytes → ShardHash) (next : UnitCount) (gs : GenState)
    (mounted : GenUnit → Bool) (held : Finset GenUnit) (node : Node) : Prop where
  gs : node.gs = gs
  mounted : ∀ unit, node.isMounted unit = mounted unit
  held : node.held = held
  serving : Serving hash next node

namespace Working

variable {mounted : GenUnit → Bool} {held : Finset GenUnit}

theorem meanwhile (working : Working hash next gs mounted held node) (pause : Option Nat)
    (site : Site) :
    Working hash next gs mounted held ((meanwhile hash env pause site node).record site) := by
  have frame := sameFrame_meanwhile hash env pause site node
  refine ⟨frame.gs.trans working.gs, fun unit => ?_, frame.held.trans working.held, ?_⟩
  · rw [← working.mounted unit]
    unfold Node.isMounted Node.record
    rw [frame.mounts]
  · exact (working.serving.serveAll _).of_frame rfl (fun _ same => same)
      (working.serving.serveAll _).acked

theorem update_child (working : Working hash next gs mounted held node)
    (splitting : Splitting gs next k) {id : Nat} (belongs : id % gs.count.n = k)
    (store : Store Bytes) :
    Working hash next gs mounted held
      { node with db := update node.db ⟨gs.gen + 1, id⟩ store } := by
  obtain ⟨rfl, mounts, handles, serving⟩ := working
  exact ⟨rfl, mounts, handles, serving.update_child splitting belongs store⟩

theorem openUnit_ends {child : GenUnit} (free : child ∉ held) :
    Fallible.Ends (fun node => Working hash next gs mounted held node ∧ Clean env node)
      (openUnit hash env child)
      (fun _ node => Working hash next gs mounted (insert child held) node ∧ Clean env node)
      (fun _ node => Working hash next gs mounted held node ∧ Faulted env true node) := by
  refine bind (call_logs fun site node working => working.meanwhile none site)
    fun _ => get fun node holds => ?_
  rw [if_neg (holds.1.held ▸ free)]
  refine modifying _ ?_
  rintro _ rfl
  obtain ⟨⟨routing, mounts, rfl, serving⟩, clean⟩ := holds
  exact ⟨⟨routing, mounts, rfl, serving.of_frame rfl (fun _ same => same) serving.acked⟩, clean⟩

def withChildren (gs : GenState) (k : Nat) (mounted : GenUnit → Bool) (unit : GenUnit) : Bool :=
  mounted unit || unit == { gen := gs.gen + 1, id := k } ||
    unit == { gen := gs.gen + 1, id := k + gs.count.n }

theorem mountPair (working : Working hash next gs mounted held node) :
    Working hash next gs (withChildren gs k mounted) held
      (node.mountPair ⟨gs.gen + 1, k⟩ ⟨gs.gen + 1, k + gs.count.n⟩) := by
  have mounts : ∀ unit, (node.mountPair ⟨gs.gen + 1, k⟩
      ⟨gs.gen + 1, k + gs.count.n⟩).isMounted unit =
        withChildren gs k mounted unit := by
    intro unit
    rw [withChildren, ← working.mounted unit]
    unfold Node.isMounted Node.mountPair State.mountFresh
    by_cases high : unit = ⟨gs.gen + 1, k + gs.count.n⟩
    · subst high
      simp
    · rw [AList.lookup_insert_ne high, beq_false_of_ne high, Bool.or_false]
      by_cases low : unit = ⟨gs.gen + 1, k⟩
      · subst low
        simp
      · rw [AList.lookup_insert_ne low, beq_false_of_ne low, Bool.or_false]
  refine ⟨working.gs, mounts, working.held, ?_⟩
  refine working.serving.of_frame rfl (fun unit mounted => ?_) working.serving.acked
  rw [mounts, withChildren, ← working.mounted unit, mounted]
  rfl

end Working

variable {gen : Nat} {unit : GenUnit}

theorem requireMounted_keeps {failed : Node → Prop}
    (mounted : ∀ node, inv node → node.isMounted unit = true) :
    Fallible.Keeps inv failed (requireMounted unit) := by
  refine get fun node holds => ?_
  rw [if_pos (mounted node holds)]
  exact pure _ (by rintro _ rfl; exact holds)

/-- How a bisect of `k` can fail: at the open of a child, and then it leaves the mounts and the
handles as they were, or at another call, and then it leaves the children open and mounted. -/
def Stopped (hash : Bytes → ShardHash) (env : Env) (next : UnitCount) (gs : GenState) (k : Nat)
    (mounted : GenUnit → Bool) (held : Finset GenUnit) (node : Node) : Prop :=
  Working hash next gs mounted held node ∧ Faulted env true node ∨
    Working hash next gs (Working.withChildren gs k mounted)
      (insert ⟨gs.gen + 1, k + gs.count.n⟩ (insert ⟨gs.gen + 1, k⟩ held)) node ∧
        Faulted env false node

section Bisecting

variable (splitting : Splitting gs next k) {mounted : GenUnit → Bool} {held : Finset GenUnit}

include splitting

theorem untilPause_ends (parent : mounted ⟨gs.gen, k⟩ = true)
    (low : ⟨gs.gen + 1, k⟩ ∉ held)
    (high : ⟨gs.gen + 1, k + gs.count.n⟩ ∉ held) :
    Fallible.Ends (fun node => Working hash next gs mounted held node ∧ Clean env node)
      (untilPause hash env gs.gen k gs.count next ⟨gs.gen + 1, k⟩
        ⟨gs.gen + 1, k + gs.count.n⟩)
      (fun _ node => Working hash next gs (Working.withChildren gs k mounted)
        (insert ⟨gs.gen + 1, k + gs.count.n⟩
          (insert ⟨gs.gen + 1, k⟩ held)) node ∧ Clean env node)
      (fun _ => Stopped hash env next gs k mounted held) := by
  have apart : (⟨gs.gen + 1, k + gs.count.n⟩ : GenUnit) ≠
      ⟨gs.gen + 1, k⟩ := by
    have := gs.count.pos
    simp only [ne_eq, GenUnit.mk.injEq, true_and]
    omega
  refine bind ((Working.openUnit_ends low).conseq (fun _ kept => kept)
    (fun _ _ kept => kept) fun _ _ failed => .inl failed) fun _ => ?_
  have second : ⟨gs.gen + 1, k + gs.count.n⟩ ∉
      insert (⟨gs.gen + 1, k⟩ : GenUnit) held := by
    rw [Finset.mem_insert, not_or]
    exact ⟨apart, high⟩
  refine bind (undoing ((Working.openUnit_ends second).conseq
    (fun _ kept => kept) (fun _ _ kept => kept) ?_)) fun _ => ?_
  · rintro - node ⟨⟨routing, mounts, handles, serving⟩, fault⟩
    refine .inl ⟨⟨routing, mounts, ?_, serving.of_frame rfl (fun _ same => same) serving.acked⟩,
      fault⟩
    change node.held.erase _ = held
    rw [handles, Finset.erase_insert low]
  have copied : Fallible.Keeps
      (fun node => Working hash next gs (Working.withChildren gs k mounted)
        (insert ⟨gs.gen + 1, k + gs.count.n⟩
          (insert ⟨gs.gen + 1, k⟩ held)) node ∧ Clean env node)
      (Stopped hash env next gs k mounted held)
      (copyUnitInto hash env none .bulk gs.gen k gs.count next (fun _ => env.live k)
        (.copy ⟨gs.gen, k⟩)) := by
    refine copyUnitInto_of_calls (fun site err other => ?_) fun entry node kept => ⟨?_, kept.2⟩
    · refine (call_logs fun site node working => working.meanwhile none site).conseq
        (fun _ kept => kept) (fun _ _ kept => kept) ?_
      rintro - node ⟨working, fault⟩
      exact .inr ⟨working, other ▸ fault⟩
    · exact kept.1.update_child splitting (SingleNode.copyTarget_mod hash splitting.inRange _) _
  refine after_modify (bind (requireMounted_keeps ?_) fun _ => copied)
    fun node kept => ⟨kept.1.mountPair, kept.2⟩
  intro node kept
  rw [kept.1.mounted, Working.withChildren, parent]
  rfl

theorem refill_logs {parent : Store Bytes} :
    Fallible.Ends
      (fun node => (Working hash next gs mounted held node ∧
        node.db ⟨gs.gen, k⟩ = parent) ∧ Clean env node)
      (refill hash env gs.gen k gs.count next ⟨gs.gen + 1, k⟩
        ⟨gs.gen + 1, k + gs.count.n⟩)
      (fun _ node => ((Working hash next gs mounted held node ∧
        node.db ⟨gs.gen, k⟩ = parent) ∧ Filling hash gs next k parent [] node) ∧
        Clean env node) (fun _ node =>
          Working hash next gs mounted held node ∧ Faulted env false node) := by
  have filled : Fallible.Ends
      (fun node => Working hash next gs mounted held node ∧
        node.db ⟨gs.gen, k⟩ = parent)
      (refill hash env gs.gen k gs.count next ⟨gs.gen + 1, k⟩ ⟨gs.gen + 1, k + gs.count.n⟩)
      (fun _ node => (Working hash next gs mounted held node ∧
        node.db ⟨gs.gen, k⟩ = parent) ∧ Filling hash gs next k parent [] node)
      (fun _ node => Working hash next gs mounted held node ∧
        node.db ⟨gs.gen, k⟩ = parent) := by
    refine refill_ends splitting (fun _ kept => kept.1.gs) ?_ (fun _ kept => kept.2) ?_
    · rintro site node ⟨working, frozen⟩
      refine ⟨working.meanwhile _ site, ?_⟩
      exact (splitting.db_meanwhile hash env site working.gs (.inl rfl)).trans frozen
    · rintro id store node child ⟨working, frozen⟩
      refine ⟨working.update_child splitting (mod_of_child splitting.inRange child) store, ?_⟩
      exact Eq.trans (update_of_ne (by simp) _ _) frozen
  have logged : Fallible.Keeps (Clean env) (Faulted env false)
      (refill hash env gs.gen k gs.count next ⟨gs.gen + 1, k⟩ ⟨gs.gen + 1, k + gs.count.n⟩) := by
    have calls : ∀ site err, site.isOpen = false →
        Fallible.Keeps (Clean env) (Faulted env false) (call hash env (some k) site err) := by
      intro site err other
      rw [← other]
      exact call_clean
    exact refill_of_calls calls fun _ _ clean => clean
  exact (filled.and logged).conseq (fun _ kept => kept) (fun _ _ kept => kept)
    fun _ _ failed => ⟨failed.1.1, failed.2⟩

theorem Working.cutOver
    (working : Working hash next gs (Working.withChildren gs k mounted) held node)
    (filling : Filling hash gs next k (node.db ⟨gs.gen, k⟩) [] node) :
    Serving hash next (cutOver k node) := by
  obtain ⟨rfl, mounts, -, serving⟩ := working
  refine ⟨serving.doubled, fun _ => splitting.entered, ?_, ?_, ?_⟩
  · intro j below stays
    exact serving.parents j below fun moved => stays (Finset.mem_insert_of_mem moved)
  · intro j moved
    rcases Finset.mem_insert.mp moved with rfl | earlier
    · change node.isMounted ⟨node.gs.gen + 1, j⟩ = true ∧
        node.isMounted ⟨node.gs.gen + 1, j + node.gs.count.n⟩ = true
      rw [mounts, mounts]
      simp [Working.withChildren]
    · exact serving.children j earlier
  · intro key
    change (node.db ((node.gs.cutOverUnit k).resolveGenUnit (hash key))).get key = node.acked key
    rw [← serving.acked key]
    by_cases own : unitForHash (hash key) node.gs.count = k
    · have moved : unitForHash (hash key) (node.gs.cutOverUnit k).count ∈
          (node.gs.cutOverUnit k).cutOver := own.symm ▸ Finset.mem_insert_self _ _
      have target := copyTarget_child hash node.gs.count next k key
      rw [GenState.resolveGenUnit_next moved splitting.entered,
        GenState.resolveGenUnit_old (own.symm ▸ splitting.waiting), own,
        ← SingleNode.copyTarget_eq splitting.twice own]
      exact (filling.get_eq target key).trans (if_pos rfl)
    · rw [GenState.resolveGenUnit_cutOverUnit_of_ne own]

end Bisecting

theorem isMounted_unmount_self (node : Node) (unit : GenUnit) :
    (node.unmount unit).isMounted unit = false := by
  unfold Node.isMounted Node.unmount
  rw [AList.lookup_erase]
  rfl

theorem isMounted_unmount_of_ne {other : GenUnit} (apart : other ≠ unit) :
    (node.unmount unit).isMounted other = node.isMounted other := by
  unfold Node.isMounted Node.unmount
  rw [AList.lookup_erase_ne apart]

theorem Serving.unmount (serving : Serving hash next node)
    (gone : unit.gen = node.gs.gen ∧ unit.id ∈ node.gs.cutOver) :
    Serving hash next (node.unmount unit) := by
  refine ⟨serving.doubled, serving.entered, ?_, ?_, serving.acked⟩
  · intro k below stays
    have apart : (⟨node.gs.gen, k⟩ : GenUnit) ≠ unit :=
      fun same => stays (same ▸ gone.2 : (⟨node.gs.gen, k⟩ : GenUnit).id ∈ _)
    exact (isMounted_unmount_of_ne apart).trans (serving.parents k below stays)
  · intro k moved
    have apart : ∀ id, (⟨node.gs.gen + 1, id⟩ : GenUnit) ≠ unit := by
      rintro id rfl
      have : node.gs.gen + 1 = node.gs.gen := gone.1
      omega
    change (node.unmount unit).isMounted ⟨node.gs.gen + 1, k⟩ = true ∧
      (node.unmount unit).isMounted ⟨node.gs.gen + 1, k + node.gs.count.n⟩ = true
    rw [isMounted_unmount_of_ne (apart _), isMounted_unmount_of_ne (apart _)]
    exact serving.children k moved

structure March (hash : Bytes → ShardHash) (env : Env) (next : UnitCount) (gen : Nat)
    (old : UnitCount) (todo : List Nat) (node : Node) : Prop where
  serving : Serving hash next node
  retryable : Retryable node
  clean : Clean env node
  gen : node.gs.gen = gen
  count : node.gs.count = old
  entered : node.gs.nextCount = some next
  nodup : todo.Nodup
  waiting : ∀ k ∈ todo, k < old.n ∧ k ∉ node.gs.cutOver
  covered : ∀ k < old.n, k ∈ node.gs.cutOver ∨ k ∈ todo

/-- No reshard gets past a unit that is mounted while its low child is open. -/
def Stuck (node : Node) : Prop :=
  ∃ k < node.gs.count.n, node.isMounted { gen := node.gs.gen, id := k } = true ∧
    { gen := node.gs.gen + 1, id := k } ∈ node.held

/-- How a reshard stops: all keys can be read, and it can be made again unless the call that has
failed is not an open. -/
structure Halted (hash : Bytes → ShardHash) (env : Env) (next : UnitCount) (gen : Nat)
    (node : Node) : Prop where
  serving : Serving hash next node
  fault : Faulted env true node ∧ Retryable node ∧ node.gs.gen = gen ∨
    Faulted env false node ∧ Stuck node

theorem Retryable.of_working (retryable : Retryable node)
    (working : Working hash next node.gs node.isMounted node.held after) : Retryable after := by
  refine ⟨?_, ?_⟩
  · rw [working.gs]
    intro k mounted
    rw [working.mounted] at mounted
    exact retryable.retired k mounted
  · rw [working.gs, working.held]
    exact retryable.closed

theorem Working.stuck {mounted : GenUnit → Bool} {held : Finset GenUnit}
    (working : Working hash next gs (Working.withChildren gs k mounted)
      (insert ⟨gs.gen + 1, k + gs.count.n⟩ (insert ⟨gs.gen + 1, k⟩ held)) node)
    (below : k < gs.count.n) (parent : mounted ⟨gs.gen, k⟩ = true) : Stuck node := by
  refine ⟨k, ?_, ?_, ?_⟩
  · rw [working.gs]
    exact below
  · rw [working.gs, working.mounted, Working.withChildren, parent]
    rfl
  · rw [working.gs, working.held]
    exact Finset.mem_insert_of_mem (Finset.mem_insert_self _ _)

section Retire

variable {start : Node}
  (working : Working hash next start.gs (Working.withChildren start.gs k start.isMounted)
    (insert { gen := start.gs.gen + 1, id := k + start.gs.count.n }
      (insert { gen := start.gs.gen + 1, id := k } start.held)) node)

include working

theorem gs_retire : (retire hash env start.gs.gen k (cutOver k node)).gs = start.gs.cutOverUnit k :=
  (sameFrame_meanwhile hash env none (.retire k) (cutOver k node)).gs.trans
    (congrArg (·.cutOverUnit k) working.gs)

theorem retryable_retire (retryable : Retryable start) (below : k < start.gs.count.n) :
    Retryable (retire hash env start.gs.gen k (cutOver k node)) := by
  have frame := sameFrame_meanwhile hash env none (.retire k) (cutOver k node)
  refine ⟨?_, ?_⟩
  · intro j mounted
    rw [gs_retire working] at mounted ⊢
    change ((meanwhile hash env none (.retire k) (cutOver k node)).unmount
      ⟨start.gs.gen, k⟩).isMounted ⟨start.gs.gen, j⟩ = true at mounted
    have apart : j ≠ k := by
      rintro rfl
      rw [isMounted_unmount_self] at mounted
      cases mounted
    rw [isMounted_unmount_of_ne (by simpa using apart)] at mounted
    have before : start.isMounted ⟨start.gs.gen, j⟩ = true := by
      unfold Node.isMounted at mounted
      rw [frame.mounts] at mounted
      have := (working.mounted ⟨start.gs.gen, j⟩).symm.trans mounted
      simpa [Working.withChildren] using this
    obtain ⟨inside, waits⟩ := retryable.retired j before
    refine ⟨inside, ?_⟩
    rw [GenState.cutOverUnit, Finset.mem_insert, not_or]
    exact ⟨apart, waits⟩
  · intro j inside waits
    rw [gs_retire working] at inside waits ⊢
    rw [GenState.cutOverUnit, Finset.mem_insert, not_or] at waits
    have closed := retryable.closed j inside waits.2
    change _ ∉ (meanwhile hash env none (.retire k) (cutOver k node)).held.erase _ ∧
      _ ∉ (meanwhile hash env none (.retire k) (cutOver k node)).held.erase _
    rw [frame.held, show (cutOver k node).held = _ from working.held]
    have inside : j < start.gs.count.n := inside
    have low : j ≠ k + start.gs.count.n := by omega
    have high : j + start.gs.count.n ≠ k := by omega
    simp [GenState.cutOverUnit, Finset.mem_erase, Finset.mem_insert, waits.1, low, high, closed.1,
      closed.2, or_self]

theorem march_retire {todo : List Nat}
    (march : March hash env next start.gs.gen start.gs.count (k :: todo) start)
    (serving : Serving hash next (cutOver k node)) (clean : Clean env node) :
    March hash env next start.gs.gen start.gs.count todo
      (retire hash env start.gs.gen k (cutOver k node)) := by
  have frame := sameFrame_meanwhile hash env none (.retire k) (cutOver k node)
  have routed : (retire hash env start.gs.gen k (cutOver k node)).gs =
      start.gs.cutOverUnit k := gs_retire working
  have moved : (retire hash env start.gs.gen k (cutOver k node)).gs.cutOver =
      insert k start.gs.cutOver := congrArg GenState.cutOver routed
  have served : Serving hash next (meanwhile hash env none (.retire k) (cutOver k node)) :=
    serving.serveAll _
  have unmounted : Serving hash next
      ((meanwhile hash env none (.retire k) (cutOver k node)).unmount ⟨start.gs.gen, k⟩) := by
    refine served.unmount ?_
    rw [frame.gs]
    exact ⟨(congrArg GenState.gen working.gs).symm, Finset.mem_insert_self _ _⟩
  refine ⟨?_, ?_, ?_, ?_, ?_, ?_, ?_, ?_, ?_⟩
  · exact unmounted.of_frame rfl (fun _ same => same) unmounted.acked
  · exact retryable_retire working march.retryable (march.waiting k List.mem_cons_self).1
  · intro site mem
    change site ∈ (meanwhile hash env none (.retire k) (cutOver k node)).log at mem
    rw [frame.log] at mem
    exact clean site mem
  · rw [routed]
    rfl
  · rw [routed]
    rfl
  · exact (congrArg GenState.nextCount routed).trans march.entered
  · exact (List.nodup_cons.mp march.nodup).2
  · intro j mem
    obtain ⟨inside, waits⟩ := march.waiting j (List.mem_cons_of_mem _ mem)
    refine ⟨inside, ?_⟩
    rw [moved, Finset.mem_insert, not_or]
    exact ⟨fun same => (List.nodup_cons.mp march.nodup).1 (same ▸ mem), waits⟩
  · intro j inside
    rw [moved]
    rcases march.covered j inside with flipped | listed
    · exact .inl (Finset.mem_insert_of_mem flipped)
    · rcases List.mem_cons.mp listed with rfl | later
      · exact .inl (Finset.mem_insert_self _ _)
      · exact .inr later

end Retire

theorem bisectUnit_ends {todo : List Nat} :
    Fallible.Ends (March hash env next gen old (k :: todo)) (bisectUnit hash env gen k old next)
      (fun _ => March hash env next gen old todo) (fun _ => Halted hash env next gen) := by
  intro start march
  obtain rfl := march.gen
  obtain rfl := march.count
  obtain ⟨below, stays⟩ := march.waiting k List.mem_cons_self
  have splitting : Splitting start.gs next k :=
    ⟨march.entered, march.serving.doubled, below, stays⟩
  have closed := march.retryable.closed k below stays
  have parent := march.serving.parents k below stays
  suffices ends : Fallible.Ends
      (fun node => Working hash next start.gs start.isMounted start.held node ∧ Clean env node)
      (bisectUnit hash env start.gs.gen k start.gs.count next)
      (fun _ => March hash env next start.gs.gen start.gs.count todo)
      (fun _ => Halted hash env next start.gs.gen) from
    ends start ⟨⟨rfl, fun _ => rfl, rfl, march.serving⟩, march.clean⟩
  unfold bisectUnit
  rw [splitting.children]
  refine bind ((untilPause_ends splitting parent closed.1 closed.2).conseq (fun _ kept => kept)
    (fun _ _ kept => kept) ?_) ?_
  · rintro - node (⟨working, fault⟩ | ⟨working, fault⟩)
    · exact ⟨working.serving, .inl ⟨fault, march.retryable.of_working working,
        congrArg GenState.gen working.gs⟩⟩
    · exact ⟨working.serving, .inr ⟨fault, working.stuck below parent⟩⟩
  · intro _ frozen kept
    refine bind ((refill_logs splitting).conseq (fun _ kept => kept)
      (fun _ _ kept => kept) fun _ _ failed =>
        ⟨failed.1.serving, .inr ⟨failed.2, failed.1.stuck below parent⟩⟩) (fun _ => ?_) frozen
      ⟨⟨kept.1, rfl⟩, kept.2⟩
    rintro filled ⟨⟨⟨working, same⟩, filling⟩, clean⟩
    exact march_retire working march (working.cutOver splitting (same.symm ▸ filling)) clean

/-- Two nodes that differ in their mounts and handles only. -/
structure SameContents (node after : Node) : Prop where
  gs : after.gs = node.gs
  db : after.db = node.db
  acked : after.acked = node.acked
  log : after.log = node.log

theorem SameContents.trans {mid : Node} (first : SameContents node mid)
    (second : SameContents mid after) : SameContents node after :=
  ⟨second.gs.trans first.gs, second.db.trans first.db, second.acked.trans first.acked,
    second.log.trans first.log⟩

theorem releaseAll (units : List GenUnit) (node : Node) :
    SameContents node (units.foldl Node.releaseUnit node) ∧
      ∀ unit ∉ units, (units.foldl Node.releaseUnit node).isMounted unit = node.isMounted unit := by
  induction units generalizing node with
  | nil => exact ⟨⟨rfl, rfl, rfl, rfl⟩, fun _ _ => rfl⟩
  | cons first rest ih =>
    obtain ⟨same, kept⟩ := ih (node.releaseUnit first)
    have frame : SameContents node (node.releaseUnit first) := ⟨rfl, rfl, rfl, rfl⟩
    refine ⟨frame.trans same, fun unit absent => ?_⟩
    rw [List.mem_cons, not_or] at absent
    exact (kept unit absent.2).trans (isMounted_unmount_of_ne absent.1)

theorem acquireUnit_spec (node : Node) (unit : GenUnit) :
    SameContents node (node.acquireUnit unit) ∧
      ∀ other, node.isMounted other = true → (node.acquireUnit unit).isMounted other = true := by
  unfold Node.acquireUnit
  split
  · exact ⟨⟨rfl, rfl, rfl, rfl⟩, fun _ mounted => mounted⟩
  · refine ⟨⟨rfl, rfl, rfl, rfl⟩, fun other mounted => ?_⟩
    unfold Node.isMounted State.mountFresh at *
    by_cases same : other = unit
    · rw [same, AList.lookup_insert]
      rfl
    · rw [AList.lookup_insert_ne same]
      exact mounted

theorem acquireAll (units : List GenUnit) (node : Node) :
    SameContents node (units.foldl Node.acquireUnit node) ∧
      ∀ unit, node.isMounted unit = true →
        (units.foldl Node.acquireUnit node).isMounted unit = true := by
  induction units generalizing node with
  | nil => exact ⟨⟨rfl, rfl, rfl, rfl⟩, fun _ mounted => mounted⟩
  | cons first rest ih =>
    obtain ⟨same, kept⟩ := ih (node.acquireUnit first)
    obtain ⟨frame, mounts⟩ := acquireUnit_spec node first
    exact ⟨frame.trans same, fun unit mounted => kept unit (mounts unit mounted)⟩

theorem reconcileUnits_spec (node : Node) :
    SameContents node node.reconcileUnits ∧
      ∀ unit ∈ desiredGenUnits node.gs, node.isMounted unit = true →
        node.reconcileUnits.isMounted unit = true := by
  obtain ⟨released, kept⟩ := releaseAll (node.mounts.keys.filter (· ∉ desiredGenUnits node.gs)) node
  obtain ⟨acquired, mounts⟩ := acquireAll
    ((desiredGenUnits node.gs).filter (· ∉ node.mounts.keys))
    ((node.mounts.keys.filter (· ∉ desiredGenUnits node.gs)).foldl Node.releaseUnit node)
  refine ⟨released.trans ⟨acquired.gs, acquired.db, acquired.acked, acquired.log⟩, ?_⟩
  intro unit wanted mounted
  refine mounts unit ((kept unit fun member => ?_).trans mounted)
  simpa [wanted] using (List.mem_filter.mp member).2

theorem mem_desiredGenUnits_steady {u : Nat} {count : UnitCount} (below : u < count.n) :
    { gen, id := u } ∈ desiredGenUnits (.steady gen count) := by
  exact List.mem_flatMap.mpr ⟨u, List.mem_range.mpr below, List.mem_cons_self⟩

theorem march_enter {start : Node} (serving : Serving hash next start)
    (retryable : Retryable start) :
    March hash env next start.gs.gen start.gs.count (start.toState.mountedOldUnits start.gs.gen)
      { start with gs := start.gs.enter next, log := [] } := by
  have listed : ∀ k, k ∈ start.toState.mountedOldUnits start.gs.gen ↔
      start.isMounted ⟨start.gs.gen, k⟩ = true :=
    fun k => SingleNode.mem_mountedOldUnits
  refine ⟨⟨serving.doubled, fun _ => rfl, serving.parents, serving.children, fun key => ?_⟩,
    ⟨retryable.retired, retryable.closed⟩, fun _ member => (by cases member), rfl, rfl, rfl,
    SingleNode.nodup_mountedOldUnits _ _, ?_, ?_⟩
  · -- publishing the next count moves no key, whether or not it was published before
    have same : (start.gs.enter next).resolveGenUnit (hash key) =
        start.gs.resolveGenUnit (hash key) := by
      rcases start.gs.cutOver.eq_empty_or_nonempty with none | some
      · exact GenState.resolveGenUnit_enter none
      · have entered := serving.entered some
        rw [GenState.enter, ← entered]
    rw [same]
    exact serving.acked key
  · intro k member
    exact retryable.retired k ((listed k).mp member)
  · intro k below
    by_cases moved : k ∈ start.gs.cutOver
    · exact .inl moved
    · exact .inr ((listed k).mpr (serving.parents k below moved))

/-- What a reshard that returns no error leaves: the next generation, in which every key can be
read. -/
structure Advanced (hash : Bytes → ShardHash) (env : Env) (next : UnitCount) (gen : Nat)
    (node : Node) : Prop where
  gs : node.gs = .steady (gen + 1) next
  clean : Clean env node
  reads : ∀ key, SingleNode.get hash node.toState key = .value (node.acked key)

theorem advanced_of_march (march : March hash env next gen old [] node) :
    Advanced hash env next gen { node with gs := .steady (gen + 1) next }.reconcileUnits := by
  obtain ⟨serving, -, clean, rfl, rfl, entered, -, -, covered⟩ := march
  obtain ⟨same, kept⟩ := reconcileUnits_spec { node with gs := .steady (node.gs.gen + 1) next }
  refine ⟨same.gs, fun site member => clean site ?_, fun key => ?_⟩
  · rw [same.log] at member
    exact member
  · have moved := (covered _ (unitForHash_lt (hash key) node.gs.count)).resolve_right (by simp)
    have stays : (GenState.steady (node.gs.gen + 1) next).resolveGenUnit (hash key) =
        node.gs.resolveGenUnit (hash key) := GenState.resolveGenUnit_advance moved entered
    have mounted := kept _ (mem_desiredGenUnits_steady (unitForHash_lt (hash key) next))
      (by
        have := serving.resolves (hash key)
        rw [← stays, GenState.resolveGenUnit_steady] at this
        exact this)
    unfold SingleNode.get
    rw [same.gs, same.db, same.acked, GenState.resolveGenUnit_steady]
    unfold Node.isMounted at mounted
    rw [if_pos mounted]
    have acked := serving.acked key
    rw [← stays, GenState.resolveGenUnit_steady] at acked
    exact congrArg SingleNode.GetResult.value acked

theorem reshard_ends :
    Fallible.Ends (fun node => (Serving hash next node ∧ Retryable node) ∧ node.gs.gen = gen)
      (reshard hash env) (fun _ => Advanced hash env next gen)
      (fun _ => Halted hash env next gen) := by
  refine get ?_
  rintro start ⟨⟨serving, retryable⟩, rfl⟩
  rw [serving.doubled]
  refine after_modify (bind (forEach
    (March hash env next start.gs.gen start.gs.count) (fun _ _ _ => bisectUnit_ends) 0 _)
    fun _ => ?_) (by rintro _ rfl; exact march_enter serving retryable)
  exact fun node march => advanced_of_march march

theorem Retryable.serveAll (retryable : Retryable node) (requests : List Request) :
    Retryable (serveAll hash requests node) := by
  have frame := sameFrame_serveAll requests hash node
  refine ⟨?_, ?_⟩
  · unfold Node.isMounted
    rw [frame.gs, frame.mounts]
    exact retryable.retired
  · rw [frame.gs, frame.held]
    exact retryable.closed

theorem Stuck.serveAll (stuck : Stuck node) (requests : List Request) :
    Stuck (serveAll hash requests node) := by
  have frame := sameFrame_serveAll requests hash node
  unfold Stuck Node.isMounted
  rw [frame.gs, frame.mounts, frame.held]
  exact stuck

section Holding

/-- The child stays open. The proposition is what is known besides, of no state. -/
def Holding (child : GenUnit) (known : Prop) (node : Node) : Prop := child ∈ node.held ∧ known

variable {child : GenUnit} {known : Prop}

theorem call_holding :
    Fallible.Keeps (Holding child known) (fun _ => True) (call hash env pause site err) := by
  refine call_ends (fun node holds _ => ⟨?_, holds.2⟩) fun _ _ _ => trivial
  exact ((sameFrame_meanwhile hash env pause site node).held.symm ▸ holds.1 :)

theorem openUnit_holding {other : GenUnit} :
    Fallible.Ends (Holding child known) (openUnit hash env other)
      (fun _ => Holding child (other ≠ child ∧ known)) (fun _ _ => True) := by
  refine bind call_holding fun _ => get fun node holds => ?_
  by_cases isOpen : other ∈ node.held
  · rw [if_pos isOpen]
    exact throw _ fun _ _ => trivial
  · rw [if_neg isOpen]
    refine modifying _ ?_
    rintro _ rfl
    exact ⟨Finset.mem_insert_of_mem holds.1, fun same => isOpen (same ▸ holds.1), holds.2⟩

/-- While the low child of `k` is open, the bisects of the other units leave it open, and that
of `k` fails. -/
theorem bisectUnit_holding {j : Nat} :
    Fallible.Ends (Holding ⟨gen + 1, k⟩ known) (bisectUnit hash env gen j old next)
      (fun _ => Holding ⟨gen + 1, k⟩ (j ≠ k)) (fun _ _ => True) := by
  unfold bisectUnit
  split
  · exact throw _ fun _ _ => trivial
  case h_2 low high children =>
  obtain rfl := low_of_childUnits children
  have opened : Fallible.Ends (Holding ⟨gen + 1, k⟩ known)
      (untilPause hash env gen low old next ⟨gen + 1, low⟩ ⟨gen + 1, high⟩)
      (fun _ => Holding ⟨gen + 1, k⟩ (low ≠ k)) (fun _ _ => True) := by
    refine bind openUnit_holding fun _ => bind
      (undoing openUnit_holding) fun _ => ?_
    refine after_modify (bind (Fallible.Keeps.get fun node => ?_)
      fun _ => (copyUnitInto_of_calls (fun _ _ _ => call_holding) fun _ _ kept => kept).conseq
        (fun _ kept => kept) (fun _ _ kept => ⟨kept.1, ?_⟩) fun _ _ kept => kept)
      fun _ kept => kept
    · split
      · exact pure _ fun _ kept => kept
      · exact throw _ fun _ _ => trivial
    · exact fun same => kept.2.2.1 (same ▸ rfl)
  refine bind opened fun _ => bind
    (refill_of_calls (fun _ _ _ => call_holding) fun _ _ kept => kept) fun _ => ?_
  rintro node ⟨isOpen, apart⟩
  refine ⟨Finset.mem_erase.mpr ⟨by simp, ?_⟩, apart⟩
  exact ((sameFrame_meanwhile hash env none (.retire low) (cutOver low node)).held.symm ▸ isOpen :)

end Holding

theorem Stuck.reshard_fails (stuck : Stuck node) (env : Env) (final : Node) :
    (reshard hash env).exec node ≠ (.ok (), final) := by
  obtain ⟨k, -, mounted, isOpen⟩ := stuck
  have ends : Fallible.Ends (· = node) (reshard hash env) (fun _ _ => False) fun _ _ => True := by
    refine get fun start same => ?_
    subst same
    cases start.gs.count.double with
    | error message => exact throw _ fun _ _ => trivial
    | ok next =>
      -- the march has the unit still before it, and its low child stays open
      refine after_modify (bind (forEach
        (fun todo => Holding ⟨start.gs.gen + 1, k⟩ (k ∈ todo)) (fun i j todo after holds => ?_) 0
        _) fun _ => ?_) ?_
      · refine bisectUnit_holding.conseq (fun _ kept => kept) (fun _ _ kept => ⟨kept.1, ?_⟩)
          (fun _ _ kept => kept) after holds
        exact (List.mem_cons.mp holds.2).resolve_left (Ne.symm kept.2)
      · rintro _ ⟨-, none⟩
        cases none
      · rintro _ rfl
        exact ⟨isOpen, SingleNode.mem_mountedOldUnits.mpr mounted⟩
  exact fun ran => ends.of_ok rfl ran

/-- **A reshard can be made again exactly if the call that failed is the open of a child.**
Whatever calls fail, and however `Reshard` returns, every key reads as the last acked write left
it. After an error a later `Reshard` in which no call fails completes if only opens of children
have failed, and fails if another call has. -/
theorem reshard_retry (hash : Bytes → ShardHash) (env : Env) (next : UnitCount)
    (start after : Node) (result : Except ReshardError Unit) (serving : Serving hash next start)
    (retryable : Retryable start) (ended : (reshard hash env).exec start = (result, after)) :
    ((∃ site ∈ after.log, env.fails site = true) → ∃ err, result = .error err) ∧
      (∀ key, SingleNode.get hash after.toState key = .value (after.acked key)) ∧
      ((∃ err, result = .error err) →
        ∀ (between : List Request) (later : Env), (∀ site, later.fails site = false) →
          ((∃ final, (reshard hash later).exec (serveAll hash between after) = (.ok (), final) ∧
              final.gs.gen = start.gs.gen + 1 ∧
              ∀ key, SingleNode.get hash final.toState key = .value (final.acked key)) ↔
            ∀ site ∈ after.log, env.fails site = true → site.isOpen = true)) := by
  cases result with
  | ok =>
    have advanced := reshard_ends.of_ok ⟨⟨serving, retryable⟩, rfl⟩ ended
    refine ⟨?_, advanced.reads, fun failed => ?_⟩
    · rintro ⟨site, made, failed⟩
      rw [advanced.clean site made] at failed
      cases failed
    · obtain ⟨err, failed⟩ := failed
      cases failed
  | error err =>
    have halted := reshard_ends.of_error ⟨⟨serving, retryable⟩, rfl⟩ ended
    refine ⟨fun _ => ⟨err, rfl⟩, halted.serving.get_eq, fun _ between later calm => ⟨?_, ?_⟩⟩
    · rintro ⟨final, ran, -⟩
      rcases halted.fault with ⟨fault, -⟩ | ⟨-, stuck⟩
      · exact fault.2
      · exact absurd ran ((stuck.serveAll between).reshard_fails later final)
    intro opens
    rcases halted.fault with ⟨-, again, sameGen⟩ | ⟨⟨⟨site, made, failed⟩, other⟩, -⟩
    · have never : ∀ isOpen node, ¬ Faulted later isOpen node := by
        rintro isOpen node ⟨⟨site, -, failed⟩, -⟩
        rw [calm site] at failed
        cases failed
      have ends : Fallible.Ends
          (fun node => (Serving hash next node ∧ Retryable node) ∧ node.gs.gen = start.gs.gen)
          (reshard hash later) (fun _ => Advanced hash later next start.gs.gen)
          (fun _ _ => False) :=
        reshard_ends.conseq (fun _ kept => kept) (fun _ _ kept => kept) fun _ node stopped =>
          stopped.fault.elim (fun fault => never _ _ fault.1) fun fault => never _ _ fault.1
      obtain ⟨_, final, ran, advanced⟩ := ends.exists_ok
        ⟨⟨halted.serving.serveAll between, again.serveAll between⟩,
          (congrArg GenState.gen (sameFrame_serveAll between hash after).gs).trans sameGen⟩
      exact ⟨final, ran, congrArg GenState.gen advanced.gs, advanced.reads⟩
    · cases (opens site made failed).symm.trans (other site made failed)

def servingNode : Node where
  gs := .steady 0 .one
  db := fun _ => Store.put ∅ [0] [5]
  mounts := AList.singleton ⟨0, 0⟩ 0
  handles := 1
  calls := []
  reshard := .idle
  acked := (Store.put ∅ [0] [5]).get
  held := {⟨0, 0⟩}
  log := []

theorem servingNode_mounted {k : Nat} (mounted : servingNode.isMounted ⟨0, k⟩ = true) : k = 0 := by
  by_contra other
  have apart : (⟨0, k⟩ : GenUnit) ≠ ⟨0, 0⟩ := by simpa using other
  unfold Node.isMounted servingNode at mounted
  rw [← AList.insert_empty, AList.lookup_insert_ne apart] at mounted
  cases mounted

theorem servingNode_serving : Serving SingleNode.firstByte .two servingNode := by
  refine ⟨by decide, fun moved => ?_, fun k below _ => ?_, fun k moved => ?_, fun _ => rfl⟩
  · exact absurd moved (by simp [servingNode, GenState.steady])
  · obtain rfl : k = 0 := by simpa [servingNode, GenState.steady, UnitCount.one] using below
    rfl
  · exact absurd moved (by simp [servingNode, GenState.steady])

theorem servingNode_retryable : Retryable servingNode := by
  refine ⟨fun k mounted => ?_, fun k below _ => ?_⟩
  · obtain rfl := servingNode_mounted mounted
    decide
  · simp [servingNode, GenState.steady]

def quietEnv (fails : Site → Bool) : Env where
  fails := fails
  traffic := fun _ => []
  live := fun _ => [([0], [5])]

theorem reshard_retry_open :
    ∃ final, (reshard SingleNode.firstByte (quietEnv fun _ => false)).exec
        ((reshard SingleNode.firstByte (quietEnv (· == .openChild ⟨1, 1⟩))).exec servingNode).2 =
          (.ok (), final) ∧ final.gs.gen = 1 := by
  obtain ⟨-, -, again⟩ := reshard_retry SingleNode.firstByte
    (quietEnv (· == .openChild ⟨1, 1⟩)) .two servingNode _ _ servingNode_serving
    servingNode_retryable rfl
  obtain ⟨final, ran, advanced, -⟩ := (again ⟨.openChild ⟨1, 1⟩ .failed, rfl⟩ []
    (quietEnv fun _ => false) fun _ => rfl).mpr (by decide)
  exact ⟨final, ran, advanced⟩

/-- A put of the first copy fails. The children stay open, and the next `Reshard`, in which
nothing fails, cannot open them. After a failed open it cannot either, if a reconcile pass comes
between: the doubled count is published, and the pass opens the children. -/
theorem reshard_stuck_after_copy_fault :
    ((reshard SingleNode.firstByte (quietEnv (· == .copyPut 0 .bulk 0))).exec servingNode).1 =
        .error (.copy ⟨0, 0⟩) ∧
      ((reshard SingleNode.firstByte (quietEnv fun _ => false)).exec
        ((reshard SingleNode.firstByte (quietEnv (· == .copyPut 0 .bulk 0))).exec
          servingNode).2).1 = .error (.openChild ⟨1, 0⟩ .alreadyOpen) ∧
      ((reshard SingleNode.firstByte (quietEnv fun _ => false)).exec
        ((reshard SingleNode.firstByte (quietEnv (· == .openChild ⟨1, 1⟩))).exec
          servingNode).2.reconcileUnits).1 = .error (.openChild ⟨1, 0⟩ .alreadyOpen) :=
  ⟨rfl, rfl, rfl⟩

end Shale.Bisect
