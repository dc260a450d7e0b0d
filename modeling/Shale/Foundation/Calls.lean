import Mathlib.Data.List.Basic
import Shale.Foundation.Machine

/-!
# Concurrent calls on a shared object

Any number of calls work on one object, each as a sequence of atomic accesses between which
the accesses of the others may fall. A `Protocol` says what a call does next: which access it
makes, what that does to the object, and how the call goes on with the answer.
-/

namespace Shale

/-- What the calls on an object do. `returned` tells whether a call has ended, and `fail` how it
goes on after an access that had no effect and no answer. -/
structure Protocol (Obj Op Phase : Type) where
  start : Op → Phase
  access : Obj → Phase → Obj × Phase
  fail : Phase → Phase
  returned : Phase → Bool

/-- A call, and how far it has come. -/
structure Call (Op Phase : Type) where
  op : Op
  phase : Phase
deriving DecidableEq

structure Calls (Obj Op Phase : Type) where
  object : Obj
  calls : List (Call Op Phase)

inductive CallAction (Op : Type) where
  | call (op : Op)
  | access (i : Nat)
  | fail (i : Nat)

namespace Calls

variable {Obj Op Phase : Type}

def setPhase (s : Calls Obj Op Phase) (i : Nat) (call : Call Op Phase) (phase : Phase) :
    Calls Obj Op Phase :=
  { s with calls := s.calls.set i { call with phase } }

theorem map_op_set {calls : List (Call Op Phase)} {i : Nat} {call : Call Op Phase}
    (found : calls[i]? = some call) (phase : Phase) :
    (calls.set i { call with phase }).map Call.op = calls.map Call.op := by
  obtain ⟨below, rfl⟩ := List.getElem?_eq_some_iff.mp found
  calc (calls.set i { calls[i] with phase }).map Call.op
      = (calls.set i calls[i]).map Call.op := by rw [List.map_set, List.map_set]
    _ = calls.map Call.op := by rw [List.set_getElem_self]

end Calls

namespace Protocol

variable {Obj Op Phase : Type} {P : Protocol Obj Op Phase} {s s' : Calls Obj Op Phase}
  {action : CallAction Op} {i : Nat}

def active (P : Protocol Obj Op Phase) (s : Calls Obj Op Phase) (i : Nat) :
    Option (Call Op Phase) :=
  s.calls[i]?.filter fun call => !P.returned call.phase

def step (P : Protocol Obj Op Phase) (action : CallAction Op) (s : Calls Obj Op Phase) :
    Option (Calls Obj Op Phase) :=
  match action with
  | .call op => some { s with calls := s.calls ++ [⟨op, P.start op⟩] }
  | .access i =>
    (P.active s i).map fun call =>
      { s with object := (P.access s.object call.phase).1 }.setPhase i call
        (P.access s.object call.phase).2
  | .fail i => (P.active s i).map fun call => s.setPhase i call (P.fail call.phase)

def machine (P : Protocol Obj Op Phase) : Machine (Calls Obj Op Phase) (CallAction Op) := ⟨P.step⟩

def initial (object : Obj) : Calls Obj Op Phase := ⟨object, []⟩

variable {allowed : Calls Obj Op Phase → CallAction Op → Prop} {call : Call Op Phase} {object : Obj}

theorem of_active (found : P.active s i = some call) :
    s.calls[i]? = some call ∧ P.returned call.phase = false := by
  simpa [active, Option.filter_eq_some_iff] using found

theorem step_cases (stepped : P.step action s = some s') :
    (∃ op, action = .call op ∧ s' = { s with calls := s.calls ++ [⟨op, P.start op⟩] }) ∨
      (∃ i call, action = .access i ∧ s.calls[i]? = some call ∧
        P.returned call.phase = false ∧
        s' = { s with object := (P.access s.object call.phase).1 }.setPhase i call
          (P.access s.object call.phase).2) ∨
      ∃ i call, action = .fail i ∧ s.calls[i]? = some call ∧ P.returned call.phase = false ∧
        s' = s.setPhase i call (P.fail call.phase) := by
  cases action with
  | call op => exact .inl ⟨op, rfl, (Option.some.inj stepped).symm⟩
  | access i =>
    obtain ⟨call, found, rfl⟩ := Option.map_eq_some_iff.mp stepped
    obtain ⟨present, going⟩ := of_active found
    exact .inr (.inl ⟨i, call, rfl, present, going, rfl⟩)
  | fail i =>
    obtain ⟨call, found, rfl⟩ := Option.map_eq_some_iff.mp stepped
    obtain ⟨present, going⟩ := of_active found
    exact .inr (.inr ⟨i, call, rfl, present, going, rfl⟩)

theorem invariant (good : Obj → Prop) (owns : Obj → Op → Phase → Prop)
    (reached : P.machine.Reaches allowed (initial object) s) (first : good object)
    (starts : ∀ obj op, owns obj op (P.start op))
    (fails : ∀ obj op phase, owns obj op phase → owns obj op (P.fail phase))
    (access : ∀ {obj op phase}, good obj → owns obj op phase →
      P.returned phase = false → good (P.access obj phase).1 ∧
        owns (P.access obj phase).1 op (P.access obj phase).2 ∧
        ∀ {op' phase'}, owns obj op' phase' → owns (P.access obj phase).1 op' phase') :
    good s.object ∧ ∀ call ∈ s.calls, owns s.object call.op call.phase := by
  induction reached with
  | refl => exact ⟨first, by simp [initial]⟩
  | tail _ _ stepped ih =>
    obtain ⟨fine, own⟩ := ih
    rcases step_cases stepped with ⟨op, -, rfl⟩ | ⟨i, call, -, found, going, rfl⟩ |
      ⟨i, call, -, found, going, rfl⟩
    · refine ⟨fine, fun other member => ?_⟩
      rcases mem_snoc.mp member with old | rfl
      · exact own other old
      · exact starts _ op
    · obtain ⟨kept, moved, others⟩ := access fine (own call (List.mem_of_getElem? found)) going
      refine ⟨kept, fun other member => ?_⟩
      rcases List.mem_or_eq_of_mem_set member with old | rfl
      · exact others (own other old)
      · exact moved
    · refine ⟨fine, fun other member => ?_⟩
      rcases List.mem_or_eq_of_mem_set member with old | rfl
      · exact own other old
      · exact fails _ _ _ (own call (List.mem_of_getElem? found))

/-- The call at a place returns in the step between two states, on the way to a third one. -/
structure Returns (P : Protocol Obj Op Phase)
    (allowed : Calls Obj Op Phase → CallAction Op → Prop) (object : Obj) (i : Nat)
    (call : Call Op Phase) (before after s : Calls Obj Op Phase) : Prop where
  reached : P.machine.Reaches allowed (initial object) before
  going : ∃ phase, before.calls[i]? = some ⟨call.op, phase⟩ ∧ P.returned phase = false ∧
    (after.object = (P.access before.object phase).1 ∧
        call.phase = (P.access before.object phase).2 ∨
      after.object = before.object ∧ call.phase = P.fail phase)
  stepped : ∃ action, allowed before action ∧ P.step action before = some after
  returned : after.calls[i]? = some call
  later : P.machine.Reaches allowed after s

variable {phase : Phase} {obj : Obj}

theorem of_getElem?_setPhase {j : Nat} {other : Call Op Phase} (present : s.calls[j]? = some other)
    (found : ({ s with object := obj }.setPhase j other phase).calls[i]? = some call) :
    i = j ∧ call = { other with phase } ∨ s.calls[i]? = some call := by
  simp only [Calls.setPhase] at found
  by_cases same : i = j
  · subst same
    obtain ⟨below, -⟩ := List.getElem?_eq_some_iff.mp present
    rw [List.getElem?_set_self below] at found
    exact .inl ⟨rfl, (Option.some.inj found).symm⟩
  · rw [List.getElem?_set_ne (Ne.symm same)] at found
    exact .inr found

theorem exists_returns (reached : P.machine.Reaches allowed (initial object) s)
    (starts : ∀ op, P.returned (P.start op) = false) (found : s.calls[i]? = some call)
    (ended : P.returned call.phase = true) :
    ∃ before after, P.Returns allowed object i call before after s := by
  induction reached with
  | refl => simp [initial] at found
  | @tail mid dst action before permitted stepped ih =>
    have earlier : mid.calls[i]? = some call →
        ∃ before after, P.Returns allowed object i call before after dst := fun old =>
      have ⟨first, second, returns⟩ := ih old
      ⟨first, second, { returns with later := returns.later.tail permitted stepped }⟩
    have taken : ∃ action, allowed mid action ∧ P.step action mid = some dst :=
      ⟨action, permitted, stepped⟩
    rcases step_cases stepped with ⟨op, -, rfl⟩ | ⟨j, other, -, present, going, rfl⟩ |
      ⟨j, other, -, present, going, rfl⟩
    · rw [List.getElem?_append] at found
      split at found
      · exact earlier found
      · obtain rfl := List.mem_singleton.mp (List.mem_of_getElem? found)
        simp [starts] at ended
    · rcases of_getElem?_setPhase present found with ⟨rfl, rfl⟩ | old
      · exact ⟨mid, _, before, ⟨other.phase, present, going, .inl ⟨rfl, rfl⟩⟩, taken, found, .refl⟩
      · exact earlier old
    · rcases of_getElem?_setPhase present found with ⟨rfl, rfl⟩ | old
      · exact ⟨mid, mid.setPhase i other (P.fail other.phase), before,
          ⟨other.phase, present, going, .inr ⟨rfl, rfl⟩⟩, taken, found, .refl⟩
      · exact earlier old

theorem countP_setPhase {ends : Call Op Phase → Bool} (found : s.calls[i]? = some call)
    (going : ends call = false) :
    ({ s with object := obj }.setPhase i call phase).calls.countP ends =
      s.calls.countP ends + if ends { call with phase } then 1 else 0 := by
  obtain ⟨below, rfl⟩ := List.getElem?_eq_some_iff.mp found
  simp only [Calls.setPhase]
  rw [List.countP_set below]
  simp [going]

section Invariant

variable (good : Obj → Prop) (owns : Obj → Op → Phase → Prop)
  (reached : P.machine.Reaches allowed (initial object) s)
  (invariant : ∀ {s}, P.machine.Reaches allowed (initial object) s →
    good s.object ∧ ∀ call ∈ s.calls, owns s.object call.op call.phase)
include reached invariant

theorem countP_eq (small : Obj → Prop) (ends : Call Op Phase → Bool) (quantity : Obj → Nat)
    (fits : small s.object)
    (zero : quantity object = 0)
    (going : ∀ call : Call Op Phase, P.returned call.phase = false → ends call = false)
    (starts : ∀ op, ends ⟨op, P.start op⟩ = false)
    (fails : ∀ op phase, ends ⟨op, P.fail phase⟩ = false)
    (access : ∀ {obj op phase}, good obj → owns obj op phase → P.returned phase = false →
      small (P.access obj phase).1 → small obj ∧ quantity (P.access obj phase).1 =
        quantity obj + if ends ⟨op, (P.access obj phase).2⟩ then 1 else 0) :
    s.calls.countP ends = quantity s.object := by
  induction reached with
  | refl => simp [initial, zero]
  | tail before _ stepped ih =>
    obtain ⟨fine, own⟩ := invariant before
    rcases step_cases stepped with ⟨op, -, rfl⟩ | ⟨i, call, -, found, open_, rfl⟩ |
      ⟨i, call, -, found, open_, rfl⟩
    · rw [List.countP_append, ih fits]
      simp [starts]
    · obtain ⟨fitted, counted⟩ := access fine (own call (List.mem_of_getElem? found)) open_ fits
      rw [countP_setPhase found (going call open_), ih fitted]
      exact counted.symm
    · refine (countP_setPhase found (going call open_)).trans ?_
      rw [ih fits]
      simp [fails, Calls.setPhase]

theorem simulates {Abstract Event : Type} (A : Machine Abstract Event)
    (related : Obj → Abstract → Prop)
    (first : Abstract) (initially : related object first)
    (access : ∀ {obj op phase abstract}, good obj → owns obj op phase →
      P.returned phase = false → related obj abstract → related (P.access obj phase).1 abstract ∨
        ∃ event next, A.step event abstract = some next ∧ related (P.access obj phase).1 next) :
    ∃ abstract, A.Reaches Machine.anyAction first abstract ∧ related s.object abstract := by
  induction reached with
  | refl => exact ⟨first, .refl, initially⟩
  | tail before _ stepped ih =>
    obtain ⟨abstract, onward, relates⟩ := ih
    obtain ⟨fine, own⟩ := invariant before
    rcases step_cases stepped with ⟨op, -, rfl⟩ | ⟨i, call, -, found, going, rfl⟩ |
      ⟨i, call, -, found, -, rfl⟩
    · exact ⟨abstract, onward, relates⟩
    · rcases access fine (own call (List.mem_of_getElem? found)) going relates with
        kept | ⟨event, next, moved, relates⟩
      · exact ⟨abstract, onward, kept⟩
      · exact ⟨next, onward.tail trivial moved, relates⟩
    · exact ⟨abstract, onward, relates⟩

end Invariant

end Protocol

end Shale
