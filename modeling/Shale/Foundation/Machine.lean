import Mathlib.Data.Option.Basic
import Mathlib.Logic.Relation

/-!
# Machines with partial actions

A machine is a partial step function: `step action state` is the state after the
action, or `none` where the action is not enabled. `Machine.Reaches` collects the
states of all runs whose steps meet a side condition on the state before each step,
and `Machine.run` executes one given action list under that condition.
-/

namespace Shale

structure Machine (State Action : Type) where
  step : Action → State → Option State

namespace Machine

variable {State Action : Type} {M : Machine State Action} {allowed : State → Action → Prop}

inductive Reaches (M : Machine State Action) (allowed : State → Action → Prop)
    (source : State) : State → Prop where
  | refl : Reaches M allowed source source
  | tail {mid dst : State} {action : Action} :
      Reaches M allowed source mid → allowed mid action → M.step action mid = some dst →
      Reaches M allowed source dst

def anyAction (_ : State) (_ : Action) : Prop := True

instance : DecidableRel (@anyAction State Action) :=
  fun _ _ => isTrue trivial

namespace Reaches

variable {source mid dst : State}

theorem invariant {inv : State → Prop} (reached : M.Reaches allowed source dst)
    (initially : inv source)
    (kept : ∀ {before after : State} {action : Action}, inv before → allowed before action →
      M.step action before = some after → inv after) : inv dst := by
  induction reached with
  | refl => exact initially
  | tail _ permitted stepped ih => exact kept ih permitted stepped

theorem mono {weaker : State → Action → Prop} (reached : M.Reaches allowed source dst)
    (le : ∀ {state action}, allowed state action → weaker state action) :
    M.Reaches weaker source dst := by
  induction reached with
  | refl => exact .refl
  | tail _ permitted stepped ih => exact ih.tail (le permitted) stepped

theorem trans (left : M.Reaches allowed source mid) (right : M.Reaches allowed mid dst) :
    M.Reaches allowed source dst := by
  induction right with
  | refl => exact left
  | tail _ permitted stepped ih => exact ih.tail permitted stepped

end Reaches

def run (M : Machine State Action) (allowed : State → Action → Prop) [DecidableRel allowed] :
    List Action → State → Option State
  | [], state => some state
  | action :: rest, state =>
    if allowed state action then (M.step action state).bind (M.run allowed rest) else none

variable {dst source : State}

theorem of_run_cons [DecidableRel allowed] {action : Action} {rest : List Action}
    (ran : M.run allowed (action :: rest) source = some dst) :
    ∃ mid, allowed source action ∧ M.step action source = some mid ∧
      M.run allowed rest mid = some dst := by
  obtain ⟨permitted, ran⟩ := Option.ite_none_right_eq_some.mp ran
  obtain ⟨mid, stepped, continued⟩ := Option.bind_eq_some_iff.mp ran
  exact ⟨mid, permitted, stepped, continued⟩

theorem reaches_of_run [DecidableRel allowed] {actions : List Action}
    (ran : M.run allowed actions source = some dst) : M.Reaches allowed source dst := by
  induction actions generalizing source with
  | nil =>
    cases ran
    exact .refl
  | cons action rest ih =>
    obtain ⟨mid, permitted, stepped, continued⟩ := of_run_cons ran
    exact Reaches.trans (.tail .refl permitted stepped) (ih continued)

theorem run_append [DecidableRel allowed] (first second : List Action) (source : State) :
    M.run allowed (first ++ second) source =
      (M.run allowed first source).bind (M.run allowed second) := by
  induction first generalizing source with
  | nil => rfl
  | cons action rest ih =>
    simp only [List.cons_append, run]
    split
    · rw [Option.bind_assoc]
      exact Option.bind_congr fun mid _ => ih mid
    · rfl

theorem Reaches.run_log {Abstract Event : Type} (A : Machine Abstract Event)
    (value : State → Abstract) (log : State → List Event) (inv : State → Prop)
    (reached : M.Reaches allowed source dst) (initially : inv source) (unlogged : log source = [])
    (kept : ∀ {before after : State} {action : Action}, inv before → allowed before action →
      M.step action before = some after → inv after)
    (linear : ∀ {before after : State} {action : Action}, inv before → allowed before action →
      M.step action before = some after →
        log after = log before ∧ value after = value before ∨
          ∃ event, log after = log before ++ [event] ∧
            A.step event (value before) = some (value after)) :
    A.run anyAction (log dst) (value source) = some (value dst) := by
  induction reached with
  | refl => rw [unlogged, run]
  | tail before permitted stepped ih =>
    have holds := before.invariant initially kept
    rcases linear holds permitted stepped with ⟨sameLog, sameValue⟩ | ⟨event, logged, executed⟩
    · rw [sameLog, sameValue, ih]
    · rw [logged, run_append, ih]
      simp [run, anyAction, executed]

theorem of_guard {guard : Prop} [Decidable guard] {next : State}
    (stepped : (if guard then some next else none) = some dst) : guard ∧ next = dst := by
  obtain ⟨enabled, ended⟩ := Option.ite_none_right_eq_some.mp stepped
  exact ⟨enabled, Option.some.inj ended⟩

def endOf (M : Machine State Action) (allowed : State → Action → Prop) [DecidableRel allowed]
    (actions : List Action) (source : State) : State :=
  (M.run allowed actions source).getD source

theorem reaches_endOf (M : Machine State Action) (allowed : State → Action → Prop)
    [DecidableRel allowed] (actions : List Action) (source : State)
    (ran : (M.run allowed actions source).isSome = true) :
    M.Reaches allowed source (M.endOf allowed actions source) := by
  obtain ⟨dst, ended⟩ := Option.isSome_iff_exists.mp ran
  rw [endOf, ended, Option.getD_some]
  exact reaches_of_run ended

theorem exists_reaches_of_run (M : Machine State Action) (allowed : State → Action → Prop)
    [DecidableRel allowed] (actions : List Action) (source : State) (property : State → Prop)
    [DecidablePred property]
    (ran : (M.run allowed actions source).any (fun dst => decide (property dst)) = true) :
    ∃ dst, M.Reaches allowed source dst ∧ property dst := by
  cases ended : M.run allowed actions source with
  | none => simp [ended] at ran
  | some dst => exact ⟨dst, reaches_of_run ended, by simpa [ended] using ran⟩

theorem exists_step_of_run (M : Machine State Action) (allowed : State → Action → Prop)
    [DecidableRel allowed] (actions : List Action) (action : Action) (source : State)
    (property : State → State → Prop) [DecidableRel property]
    (ran : (M.run allowed actions source).any (fun dst =>
      (M.step action dst).any fun after => decide (property dst after)) = true) :
    ∃ dst after, M.Reaches allowed source dst ∧ M.step action dst = some after ∧
      property dst after := by
  cases ended : M.run allowed actions source with
  | none => simp [ended] at ran
  | some dst =>
    cases stepped : M.step action dst with
    | none => simp [ended, stepped] at ran
    | some after =>
      exact ⟨dst, after, reaches_of_run ended, stepped, by simpa [ended, stepped] using ran⟩

end Machine

/-- An entry of a log that has grown by one. -/
theorem mem_snoc {α : Type} {entry last : α} {log : List α} :
    entry ∈ log ++ [last] ↔ entry ∈ log ∨ entry = last := by
  simp

end Shale
