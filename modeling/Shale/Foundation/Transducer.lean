import Mathlib.Data.List.Basic

/-!
# Objects that answer operations

A transducer is an object whose methods run one at a time: each operation has an answer and
leaves a state. Its traces pair the operations of a run with their answers. The rules here derive
what holds of whole traces from what holds of one step: an invariant of the states, and the
operations that a selection picks out of a trace.
-/

namespace Shale

/-- An object given by what each operation answers and leaves behind. -/
structure Transducer (State Op Answer : Type) where
  step : Op → State → Answer × State

namespace Transducer

variable {State Op Answer Seen : Type} (T : Transducer State Op Answer)

def run : List Op → State → State
  | [], s => s
  | op :: rest, s => run rest (T.step op s).2

def trace : List Op → State → List (Op × Answer)
  | [], _ => []
  | op :: rest, s => (op, (T.step op s).1) :: trace rest (T.step op s).2

variable {T}

theorem run_invariant (inv : State → Prop) (kept : ∀ op s, inv s → inv (T.step op s).2)
    (ops : List Op) {s : State} (initially : inv s) : inv (T.run ops s) := by
  induction ops generalizing s with
  | nil => exact initially
  | cons op rest ih => exact ih (kept op s initially)

theorem foldl_trace {View : Type} {count : View → Op × Answer → View} {view : State → View}
    (step : ∀ op s, count (view s) (op, (T.step op s).1) = view (T.step op s).2)
    (ops : List Op) (s : State) : (T.trace ops s).foldl count (view s) = view (T.run ops s) := by
  induction ops generalizing s with
  | nil => rfl
  | cons op rest ih =>
    rw [trace, List.foldl_cons, step]
    exact ih _

section Select

variable {select : Op × Answer → Option Seen} {fair : Op × Answer → Prop}

variable {ops : List Op} {s : State}

theorem filterMap_trace_eq_nil (quiet : State → Prop)
    (silent : ∀ op s, quiet s → fair (op, (T.step op s).1) → select (op, (T.step op s).1) = none ∧
      quiet (T.step op s).2)
    (still : quiet s) (all : ∀ event ∈ T.trace ops s, fair event) :
    (T.trace ops s).filterMap select = [] := by
  induction ops generalizing s with
  | nil => rfl
  | cons op rest ih =>
    obtain ⟨unseen, still'⟩ := silent op s still (all _ List.mem_cons_self)
    have later := ih still' fun event member => all event (List.mem_cons_of_mem _ member)
    simp [trace, unseen, later]

theorem filterMap_trace_prefix (armed quiet : State → Prop) {seen : Seen}
    (step : ∀ op s, armed s → fair (op, (T.step op s).1) → select (op, (T.step op s).1) = none ∧
      armed (T.step op s).2 ∨ select (op, (T.step op s).1) = some seen ∧ quiet (T.step op s).2)
    (silent : ∀ op s, quiet s → fair (op, (T.step op s).1) → select (op, (T.step op s).1) = none ∧
      quiet (T.step op s).2)
    (ready : armed s) (all : ∀ event ∈ T.trace ops s, fair event) :
    (T.trace ops s).filterMap select <+: [seen] := by
  induction ops generalizing s with
  | nil => exact List.nil_prefix
  | cons op rest ih =>
    have fairly := all _ List.mem_cons_self
    have others : ∀ event ∈ T.trace rest (T.step op s).2, fair event :=
      fun event member => all event (List.mem_cons_of_mem _ member)
    rcases step op s ready fairly with ⟨unseen, ready'⟩ | ⟨found, still⟩
    · simp only [trace, List.filterMap_cons, unseen]
      exact ih ready' others
    · simp only [trace, List.filterMap_cons, found, filterMap_trace_eq_nil quiet silent still
        others]
      exact List.prefix_refl _

end Select

end Transducer

end Shale
