import Mathlib.Order.Basic

/-!
# Loops that end with a result

A loop is given by its body: a turn from a state either ends the loop with a result or yields
the state for the next turn. `Loop.run` takes a bounded number of turns.
-/

namespace Shale.Loop

variable {State Result : Type}

def run (turn : State → Result ⊕ State) : Nat → State → Option Result
  | 0, _ => none
  | fuel + 1, state =>
    match turn state with
    | .inl result => some result
    | .inr next => run turn fuel next

variable {turn : State → Result ⊕ State} {state next : State} {result : Result} {fuel : Nat}

theorem run_of_ends (ends : turn state = .inl result) :
    run turn (fuel + 1) state = some result := by
  rw [run, ends]

theorem run_of_continues (continues : turn state = .inr next) :
    run turn (fuel + 1) state = run turn fuel next := by
  rw [run, continues]

theorem run_ends (turn : State → Result ⊕ State) (state : State) (inv : Nat → State → Prop)
    (post : Nat → Result → Prop) (bound : Nat) (initially : inv 0 state)
    (turns : ∀ n s, inv n s →
      (∃ result, turn s = .inl result ∧ post n result) ∨
        ∃ next, turn s = .inr next ∧ inv (n + 1) next)
    (bounded : ∀ n s, inv n s → n < bound) :
    ∃ n < bound, ∃ result, post n result ∧
      ∀ fuel, n < fuel → run turn fuel state = some result := by
  -- From a state after `n` turns on, by induction on the turns that are left.
  have later : ∀ left n s, inv n s → bound ≤ n + left → ∃ more, n + more < bound ∧
      ∃ result, post (n + more) result ∧
        ∀ fuel, more < fuel → run turn fuel s = some result := by
    intro left
    induction left with
    | zero =>
      intro n s holds spent
      exact absurd (bounded n s holds) (Nat.not_lt.mpr spent)
    | succ left ih =>
      intro n s holds spent
      rcases turns n s holds with ⟨result, ends, wanted⟩ | ⟨next, continues, kept⟩
      · refine ⟨0, bounded n s holds, result, wanted, fun fuel enough => ?_⟩
        obtain ⟨less, rfl⟩ := Nat.exists_eq_add_of_lt enough
        rw [Nat.zero_add, run_of_ends ends]
      · obtain ⟨more, within, result, wanted, ran⟩ := ih (n + 1) next kept (by omega)
        rw [Nat.add_right_comm] at within wanted
        refine ⟨more + 1, within, result, wanted, fun fuel enough => ?_⟩
        obtain ⟨less, rfl⟩ := Nat.exists_eq_add_of_lt enough
        rw [run_of_continues continues]
        exact ran _ (by omega)
  obtain ⟨more, within, result, wanted, ran⟩ := later bound 0 state initially (by omega)
  rw [Nat.zero_add] at within wanted
  exact ⟨more, within, result, wanted, ran⟩

end Shale.Loop
