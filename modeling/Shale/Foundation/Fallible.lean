import Mathlib.Data.List.Basic

/-!
# Programs that change a state and may fail

A `Fallible` program changes a state and returns a value, or stops with an error and leaves the
state as it is at that point: nothing is rolled back. `Ends pre program ok err` says what holds
at either exit of a program that starts where `pre` holds. Programs always end, so that there is
one triple for partial and total correctness; the rules follow the ways programs are put
together.
-/

namespace Shale

abbrev Fallible (σ ε α : Type) := ExceptT ε (StateM σ) α

namespace Fallible

variable {σ ε α β : Type}

def exec (program : Fallible σ ε α) (s : σ) : Except ε α × σ := (program.run.run s).run

def undoing (undo : σ → σ) (program : Fallible σ ε α) : Fallible σ ε α :=
  fun s => match program.exec s with
    | (.ok a, s') => (.ok a, s')
    | (.error err, s') => (.error err, undo s')

def forEach (body : Nat → α → Fallible σ ε Unit) (i : Nat) : List α → Fallible σ ε Unit
  | [] => pure ()
  | x :: rest => do
      body i x
      forEach body (i + 1) rest

section Exec

@[simp] theorem exec_modify (f : σ → σ) (s : σ) :
    (modify f : Fallible σ ε PUnit).exec s = (.ok ⟨⟩, f s) := rfl

theorem exec_bind (program : Fallible σ ε α) (next : α → Fallible σ ε β) (s : σ) :
    (program >>= next).exec s =
      match program.exec s with
      | (.ok a, s') => (next a).exec s'
      | (.error err, s') => (.error err, s') := by
  unfold exec
  rw [ExceptT.run_bind, StateT.run_bind]
  rcases program.run.run s with ⟨a | a, s'⟩ <;> rfl

theorem exec_undoing (undo : σ → σ) (program : Fallible σ ε α) (s : σ) :
    (program.undoing undo).exec s =
      match program.exec s with
      | (.ok a, s') => (.ok a, s')
      | (.error err, s') => (.error err, undo s') := rfl

theorem exec_bind_ok {program : Fallible σ ε α} {next : α → Fallible σ ε β} {s s' : σ} {b : β} :
    (program >>= next).exec s = (.ok b, s') ↔
      ∃ a mid, program.exec s = (.ok a, mid) ∧ (next a).exec mid = (.ok b, s') := by
  rw [exec_bind]
  rcases program.exec s with ⟨err | a, mid⟩ <;> simp

end Exec

def Ends (pre : σ → Prop) (program : Fallible σ ε α) (ok : α → σ → Prop)
    (err : ε → σ → Prop) : Prop :=
  ∀ s, pre s →
    match program.exec s with
    | (.ok a, s') => ok a s'
    | (.error e, s') => err e s'

namespace Ends

variable {pre pre' : σ → Prop} {program : Fallible σ ε α} {ok ok' : α → σ → Prop}
  {err err' : ε → σ → Prop} {s s' : σ} {a : α} {e : ε}

theorem of_ok (ends : Ends pre program ok err) (holds : pre s)
    (ran : program.exec s = (.ok a, s')) : ok a s' := by
  have := ends s holds
  rwa [ran] at this

theorem of_error (ends : Ends pre program ok err) (holds : pre s)
    (ran : program.exec s = (.error e, s')) : err e s' := by
  have := ends s holds
  rwa [ran] at this

theorem exists_ok (ends : Ends pre program ok fun _ _ => False) (holds : pre s) :
    ∃ a s', program.exec s = (.ok a, s') ∧ ok a s' := by
  rcases ran : program.exec s with ⟨e | a, s'⟩
  · exact (ends.of_error holds ran).elim
  · exact ⟨a, s', rfl, ends.of_ok holds ran⟩

theorem conseq (ends : Ends pre program ok err) (weaken : ∀ s, pre' s → pre s)
    (okMono : ∀ a s, ok a s → ok' a s) (errMono : ∀ e s, err e s → err' e s) :
    Ends pre' program ok' err' := by
  intro s holds
  have := ends s (weaken s holds)
  split at this
  · exact okMono _ _ this
  · exact errMono _ _ this

theorem pure (a : α) (holds : ∀ s, pre s → ok a s) :
    Ends pre (Pure.pure a : Fallible σ ε α) ok err := holds

theorem throw (e : ε) (holds : ∀ s, pre s → err e s) :
    Ends pre (MonadExcept.throw e : Fallible σ ε α) ok err := holds

theorem modifying {ok : PUnit → σ → Prop} (f : σ → σ) (holds : ∀ s, pre s → ok ⟨⟩ (f s)) :
    Ends pre (modify f : Fallible σ ε PUnit) ok err := holds

theorem bind {next : α → Fallible σ ε β} {mid : α → σ → Prop} {ok : β → σ → Prop}
    (first : Ends pre program mid err) (second : ∀ a, Ends (mid a) (next a) ok err) :
    Ends pre (program >>= next) ok err := by
  intro s holds
  rw [exec_bind]
  rcases ran : program.exec s with ⟨e | a, after⟩
  · exact first.of_error holds ran
  · exact second a after (first.of_ok holds ran)

theorem after_modify {f : σ → σ} {next : PUnit → Fallible σ ε α}
    (rest : Ends pre' (next ⟨⟩) ok err) (changed : ∀ s, pre s → pre' (f s)) :
    Ends pre (modify f >>= next) ok err := by
  intro s holds
  rw [exec_bind, exec_modify]
  exact rest (f s) (changed s holds)

theorem get {next : σ → Fallible σ ε α} (each : ∀ s, pre s → Ends (· = s) (next s) ok err) :
    Ends pre (MonadState.get >>= next) ok err := by
  intro s holds
  rw [exec_bind]
  exact each s holds s rfl

theorem undoing {undo : σ → σ} (ends : Ends pre program ok fun e s => err e (undo s)) :
    Ends pre (program.undoing undo) ok err := by
  intro s holds
  rw [exec_undoing]
  rcases ran : program.exec s with ⟨e | a, s'⟩
  · exact ends.of_error holds ran
  · exact ends.of_ok holds ran

theorem forEach {body : Nat → α → Fallible σ ε Unit} (inv : List α → σ → Prop)
    (step : ∀ i x rest, Ends (inv (x :: rest)) (body i x) (fun _ => inv rest) err)
    (i : Nat) (xs : List α) : Ends (inv xs) (Fallible.forEach body i xs) (fun _ => inv []) err := by
  induction xs generalizing i with
  | nil => exact Ends.pure () fun _ holds => holds
  | cons x rest ih => exact bind (step i x rest) fun _ => ih (i + 1)

theorem and {ok' : α → σ → Prop} {err' : ε → σ → Prop} (ends : Ends pre program ok err)
    (other : Ends pre' program ok' err') :
    Ends (fun s => pre s ∧ pre' s) program (fun a s => ok a s ∧ ok' a s)
      (fun e s => err e s ∧ err' e s) := by
  intro s holds
  have left := ends s holds.1
  have right := other s holds.2
  rcases ran : program.exec s with ⟨e | a, s'⟩
  · rw [ran] at left right
    exact ⟨left, right⟩
  · rw [ran] at left right
    exact ⟨left, right⟩

end Ends

abbrev Keeps (inv failed : σ → Prop) (program : Fallible σ ε α) : Prop :=
  Ends inv program (fun _ => inv) (fun _ => failed)

namespace Keeps

variable {inv failed : σ → Prop}

theorem modifying {f : σ → σ} (holds : ∀ s, inv s → inv (f s)) :
    Keeps inv failed (modify f : Fallible σ ε PUnit) := holds

theorem get {next : σ → Fallible σ ε α} (each : ∀ s, Keeps inv failed (next s)) :
    Keeps inv failed (MonadState.get >>= next) :=
  Ends.get fun s holds => (each s).conseq (fun _ same => same ▸ holds) (fun _ _ kept => kept)
    fun _ _ kept => kept

theorem forEach {body : Nat → α → Fallible σ ε Unit}
    (step : ∀ i x, Keeps inv failed (body i x)) (i : Nat) (xs : List α) :
    Keeps inv failed (Fallible.forEach body i xs) :=
  Ends.forEach (fun _ => inv) (fun i x _ => step i x) i xs

end Keeps

end Fallible

end Shale
