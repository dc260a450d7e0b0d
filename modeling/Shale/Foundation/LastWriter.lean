import Mathlib.Data.List.Basic
import Mathlib.Order.Lattice

/-!
# Last writer wins

A register keeps, of all values written to it, one with the greatest stamp. A value replaces
the one that is stored if its stamp is greater, so what is stored after any number of writes is
a latest one among them. If values with one stamp are equal, there is only one latest value, and
it depends neither on the order of the writes nor on how often each of them was made.
-/

namespace Shale.LastWriter

variable {Value Clock : Type} [LinearOrder Clock] {stamp : Value → Clock}
  {stored : Option Value} {incoming v w : Value} {values : List Value}

def newer (stamp : Value → Clock) (stored : Option Value) (incoming : Value) : Option Value :=
  match stored with
  | none => some incoming
  | some old => if stamp old < stamp incoming then some incoming else some old

def merged (stamp : Value → Clock) (stored : Option Value) (values : List Value) : Option Value :=
  values.foldl (newer stamp) stored

structure IsLatest (stamp : Value → Clock) (P : Value → Prop) (v : Value) : Prop where
  holds : P v
  le : ∀ w, P w → stamp w ≤ stamp v

def Unambiguous (stamp : Value → Clock) (P : Value → Prop) : Prop :=
  ∀ v w, P v → P w → stamp v = stamp w → v = w

theorem IsLatest.unique {P : Value → Prop} (unambiguous : Unambiguous stamp P)
    (left : IsLatest stamp P v) (right : IsLatest stamp P w) : v = w :=
  unambiguous v w left.holds right.holds
    (le_antisymm (right.le v left.holds) (left.le w right.holds))

theorem isLatest_newer (stamp : Value → Clock) (stored : Option Value) (incoming : Value) :
    ∃ v, newer stamp stored incoming = some v ∧
      IsLatest stamp (fun w => w ∈ stored ∨ w = incoming) v := by
  cases stored with
  | none => exact ⟨incoming, rfl, .inr rfl, by simp⟩
  | some old =>
    simp only [newer]
    split
    case isTrue less =>
      refine ⟨incoming, rfl, .inr rfl, ?_⟩
      rintro w (held | rfl)
      · cases held
        exact less.le
      · exact le_rfl
    case isFalse beaten =>
      refine ⟨old, rfl, .inl rfl, ?_⟩
      rintro w (held | rfl)
      · cases held
        exact le_rfl
      · exact not_lt.mp beaten

theorem isLatest_of_merged (kept : merged stamp stored values = some v) :
    IsLatest stamp (fun w => w ∈ stored ∨ w ∈ values) v := by
  induction values generalizing stored with
  | nil =>
    refine ⟨.inl kept, ?_⟩
    rintro w (held | mem)
    · rw [merged, List.foldl_nil] at kept
      rw [Option.some.inj (held.symm.trans kept)]
    · cases mem
  | cons incoming rest ih =>
    obtain ⟨first, now, latest⟩ := isLatest_newer stamp stored incoming
    have rest_latest := ih kept
    have reached := rest_latest.le first (.inl now)
    refine ⟨?_, ?_⟩
    · rcases rest_latest.holds with held | mem
      · cases now.symm.trans held
        rcases latest.holds with old | rfl
        · exact .inl old
        · exact .inr (List.mem_cons_self ..)
      · exact .inr (List.mem_cons_of_mem _ mem)
    · rintro w (held | mem)
      · exact (latest.le w (.inl held)).trans reached
      · rcases List.mem_cons.mp mem with rfl | later
        · exact (latest.le w (.inr rfl)).trans reached
        · exact rest_latest.le w (.inr later)

theorem merged_isSome (some_write : stored.isSome ∨ values ≠ []) :
    (merged stamp stored values).isSome := by
  induction values generalizing stored with
  | nil => simpa [merged] using some_write
  | cons incoming rest ih =>
    obtain ⟨first, now, -⟩ := isLatest_newer stamp stored incoming
    exact ih (.inl (by rw [now]; rfl))

end Shale.LastWriter
