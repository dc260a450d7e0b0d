import Mathlib.Data.List.Basic

/-!
# Counting repeated observations

An observer looks at something again and again, each time finding a value or nothing. It keeps
the value it has found last and how many observations before it, without a gap, have found the
same. `Streak.record_cons` says that this record is exactly what the whole history tells, although
the observer keeps none of it.
-/

namespace Shale.Streak

variable {Value : Type} [DecidableEq Value]

def next (record : Option (Value × Nat)) : Option Value → Option (Value × Nat)
  | none => none
  | some value =>
    match record with
    | none => some (value, 0)
    | some (last, repeats) => if last = value then some (value, repeats + 1) else some (value, 0)

def record : List (Option Value) → Option (Value × Nat)
  | [] => none
  | new :: older => next (record older) new

theorem record_cons (value : Value) (older : List (Option Value)) :
    record (some value :: older) =
      some (value, (older.takeWhile fun found => found = some value).length) := by
  -- the newest value differs from the one before it in one case, so every value is needed
  induction older generalizing value with
  | nil => rfl
  | cons new older ih =>
    cases new with
    | none => simp [record, next]
    | some other =>
      rw [record, ih other]
      by_cases same : other = value
      · subst same
        simp [next]
      · simp [next, same]

theorem le_length_takeWhile_iff {Entry : Type} (same : Entry → Bool) (count : Nat)
    (entries : List Entry) :
    count ≤ (entries.takeWhile same).length ↔
      count ≤ entries.length ∧ ∀ entry ∈ entries.take count, same entry = true := by
  induction entries generalizing count with
  | nil => simp
  | cons entry entries ih =>
    cases count with
    | zero => simp
    | succ count =>
      cases holds : same entry with
      | true => simp [holds, ih]
      | false => simp [holds]

end Shale.Streak
