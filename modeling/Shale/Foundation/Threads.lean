import Shale.Foundation.Machine

/-!
# Named threads on a shared object

Threads work on one object, each at some phase of its program. A program says how a thread goes
on at an event: what becomes of the object and which phase comes next. It may look at the
phases of the other threads, so that a mutex or a wait is a guard, but it moves only its own.

Threads have names rather than places in a list. Where the modelled code runs one thing at a
time, such as a loop or the holder of a lock, one name says so, and no invariant has to.
-/

namespace Shale

open Function

structure Threads (Object Name Phase : Type) where
  object : Object
  phase : Name → Phase

namespace Threads

variable {Object Name Event Phase : Type}

abbrev Program (Object Name Event Phase : Type) :=
  Name → Event → Threads Object Name Phase → Option (Object × Phase)

variable [DecidableEq Name] {program : Program Object Name Event Phase}
  {s s' : Threads Object Name Phase} {name : Name} {event : Event}

def step (program : Program Object Name Event Phase) (action : Name × Event)
    (s : Threads Object Name Phase) : Option (Threads Object Name Phase) :=
  (program action.1 action.2 s).map fun moved =>
    ⟨moved.1, update s.phase action.1 moved.2⟩

def machine (program : Program Object Name Event Phase) :
    Machine (Threads Object Name Phase) (Name × Event) := ⟨step program⟩

theorem of_step (stepped : (machine program).step (name, event) s = some s') :
    ∃ object phase, program name event s = some (object, phase) ∧
      s' = ⟨object, update s.phase name phase⟩ := by
  obtain ⟨⟨object, phase⟩, moved, rfl⟩ := Option.map_eq_some_iff.mp stepped
  exact ⟨object, phase, moved, rfl⟩

variable {allowed : Threads Object Name Phase → Name × Event → Prop}
  {source : Threads Object Name Phase}

theorem invariant (good : Object → Prop) (owns : Name → Object → Phase → Prop)
    (reached : (machine program).Reaches allowed source s) (first : good source.object)
    (idle : ∀ name, owns name source.object (source.phase name))
    (kept : ∀ {s : Threads Object Name Phase} {name event object phase},
      (machine program).Reaches allowed source s → good s.object →
      (∀ other, owns other s.object (s.phase other)) → allowed s (name, event) →
      program name event s = some (object, phase) → good object ∧ owns name object phase ∧
        ∀ other, other ≠ name → owns other object (s.phase other)) :
    good s.object ∧ ∀ name, owns name s.object (s.phase name) := by
  induction reached with
  | refl => exact ⟨first, idle⟩
  | @tail before _ action reached permitted stepped ih =>
    obtain ⟨name, event⟩ := action
    obtain ⟨object, phase, moved, rfl⟩ := of_step stepped
    obtain ⟨fine, mine, others⟩ := kept reached ih.1 ih.2 permitted moved
    refine ⟨fine, fun other => ?_⟩
    by_cases same : other = name
    · subst same
      simpa using mine
    · simpa [update_of_ne same] using others other same

theorem phase_of_reaches (reached : (machine program).Reaches allowed source s)
    (still : ∀ {s event}, ¬ allowed s (name, event)) : s.phase name = source.phase name := by
  induction reached with
  | refl => rfl
  | @tail before _ action _ permitted stepped ih =>
    obtain ⟨other, event⟩ := action
    obtain ⟨object, phase, -, rfl⟩ := of_step stepped
    have apart : name ≠ other := fun mine => still (mine ▸ permitted)
    rw [← ih]
    exact update_of_ne apart _ _

end Threads

end Shale
