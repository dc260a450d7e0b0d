import Mathlib.Data.List.Basic

/-!
# Sweeps over keyed cells

A sweep visits a list of keys and updates the cell of each key it visits from that cell alone.
If a second visit of a cell changes nothing, neither the order of the keys nor their repetitions
matter: each visited cell is updated once and the others stay.
-/

namespace Shale

variable {Key Cell : Type} [DecidableEq Key]

def sweep (visit : Key → Cell → Cell) (keys : List Key) (cells : Key → Cell) : Key → Cell :=
  keys.foldl (fun cells key => Function.update cells key (visit key (cells key))) cells

@[simp] theorem sweep_nil (visit : Key → Cell → Cell) (cells : Key → Cell) :
    sweep visit [] cells = cells := rfl

theorem sweep_apply {visit : Key → Cell → Cell} {key : Key}
    (stable : ∀ cell, visit key (visit key cell) = visit key cell) (keys : List Key)
    (cells : Key → Cell) :
    sweep visit keys cells key = if key ∈ keys then visit key (cells key) else cells key := by
  induction keys generalizing cells with
  | nil => simp
  | cons first rest ih =>
    change sweep visit rest _ key = _
    rw [ih]
    by_cases same : key = first
    · subst same
      simp [stable]
    · simp [same]

end Shale
