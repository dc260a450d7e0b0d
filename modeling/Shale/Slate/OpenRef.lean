import Mathlib.Data.List.Pairwise
import Shale.Foundation.Threads
import Shale.Handoff.MountTable

/-!
# The epoch that an open reports

`openRef` of `backends/slate/factory.go` opens one mount of a handle under the mount's latch: it
refuses a mount that the handle holds, reads the durable writer epoch from the manifest
(`fenceEpochRef`), lets slatedb's `Build` take the writer epoch, and reports the epoch that it has
computed from what it read. `Build` takes no epoch as an argument: it raises the durable one by
one, wherever that stands by then. The latch belongs to the handle, so that the opens of two
handles interleave freely between the read and the `Build`.

An open is told apart here by what it was asked for, what it has read, and where the durable epoch
stood when its `Build` came.
-/

namespace Shale.Slate

open Machine Function

def fenceEpochRef (durable intended : Nat) : Nat :=
  if (durable + 1) % 2 ^ 64 > intended then (durable + 1) % 2 ^ 64 else intended

/-- How far a goroutine has come with an `openRef`: nothing asked yet, waiting for the latch, before
the held-check, before the manifest read, before a `Build` with the epochs it has read and computed,
before the insert into the map of open mounts, returned. -/
inductive Phase where
  | idle
  | waiting (handle intended : Nat)
  | checking (handle intended : Nat)
  | fencing (handle intended : Nat)
  | building (handle intended read opened : Nat)
  | inserting (handle opened : Nat)
  | returned (opened : Nat)
  | failed
deriving DecidableEq

/-- An open whose `Build` has succeeded: what it was asked for and has read, where the durable epoch
stood before its `Build`, and what it reports. -/
structure Opened where
  handle : Nat
  intended : Nat
  read : Nat
  before : Nat
  reported : Nat
deriving DecidableEq

namespace Opened

def established (o : Opened) : Nat := o.before + 1

/-- The floor is not above the next epoch, and the read is still true or the floor makes up for
it. -/
def Undisturbed (o : Opened) : Prop :=
  o.intended ≤ o.before + 1 ∧ (o.read = o.before ∨ o.intended = o.before + 1)

instance (o : Opened) : Decidable o.Undisturbed := inferInstanceAs (Decidable (_ ∧ _))

end Opened

/-- The mount: its durable writer epoch, the latch of each handle and the epoch it holds the mount
open at, how many `Build` calls abandoned at the open timeout still run, and the opens whose `Build`
has succeeded, in the order of the builds. -/
structure Mount where
  durable : Nat
  latch : Nat → Bool
  held : Nat → Option Nat
  stalled : Nat
  opens : List Opened

/-- How an attempt of `buildDbRetry` ends. An attempt that returns an error may have raised the
durable epoch before it failed; a transient error is retried, a timeout is not, and its `Build` runs
on. -/
inductive BuildAnswer where
  | ok
  | transient (fenced : Bool)
  | failed (fenced : Bool)
  | timedOut
deriving DecidableEq

inductive Event where
  | call (handle intended : Nat)
  | lock
  | check
  | read (ok : Bool)
  | build (answer : BuildAnswer)
  | insert
  | close (handle : Nat)
  | stalledEnds (fenced : Bool)
deriving DecidableEq

namespace Mount

def lock (m : Mount) (handle : Nat) : Mount :=
  { m with latch := update m.latch handle true }

def unlock (m : Mount) (handle : Nat) : Mount :=
  { m with latch := update m.latch handle false }

def raise (m : Mount) (fenced : Bool) : Option Mount :=
  if fenced then if m.durable + 1 < 2 ^ 64 then some { m with durable := m.durable + 1 } else none
  else some m

def advance : Event → Mount → Phase → Option (Mount × Phase)
  | .call handle intended, m, .idle => some (m, .waiting handle intended)
  | .lock, m, .waiting handle intended =>
    if m.latch handle then none else some (m.lock handle, .checking handle intended)
  | .check, m, .checking handle intended =>
    if (m.held handle).isSome then some (m.unlock handle, .failed)
    else some (m, .fencing handle intended)
  | .read ok, m, .fencing handle intended =>
    if ok then
      some (m, .building handle intended m.durable (fenceEpochRef m.durable intended))
    else some (m.unlock handle, .failed)
  | .build answer, m, .building handle intended read opened =>
    match answer with
    | .ok => (m.raise true).map fun raised =>
      ({ raised with opens := m.opens ++ [⟨handle, intended, read, m.durable, opened⟩] },
        .inserting handle opened)
    | .transient fenced => (m.raise fenced).map fun raised =>
      (raised, .building handle intended read opened)
    | .failed fenced => (m.raise fenced).map fun raised => (raised.unlock handle, .failed)
    | .timedOut => some ({ m with stalled := m.stalled + 1 }.unlock handle, .failed)
  | .insert, m, .inserting handle opened =>
    some ({ m with held := update m.held handle (some opened) }.unlock handle,
      .returned opened)
  | .close handle, m, .idle => some ({ m with held := update m.held handle none }, .idle)
  | .stalledEnds fenced, m, .idle =>
    if 0 < m.stalled then
      ({ m with stalled := m.stalled - 1 }.raise fenced).map fun raised => (raised, .idle)
    else none
  | _, _, _ => none

abbrev Goroutines := Threads Mount Nat Phase

def program : Threads.Program Mount Nat Event Phase :=
  fun name event s => advance event s.object (s.phase name)

def machine : Machine Goroutines (Nat × Event) := Threads.machine program

/-- The mount as it is in shared storage, and no handle has it open. -/
def initial (durable : UInt64) : Goroutines :=
  ⟨⟨durable.toNat, fun _ => false, fun _ => none, 0, []⟩, fun _ => .idle⟩

section Steps

variable {event : Event} {m m' : Mount} {phase phase' : Phase} {fenced : Bool}

theorem of_raise (raised : m.raise fenced = some m') :
    m'.opens = m.opens ∧ m.durable ≤ m'.durable ∧ (m.durable < 2 ^ 64 → m'.durable < 2 ^ 64) := by
  unfold raise at raised
  split at raised
  · obtain ⟨below, rfl⟩ := of_guard raised
    exact ⟨rfl, Nat.le_succ _, fun _ => below⟩
  · cases raised
    exact ⟨rfl, le_rfl, id⟩

/-- A step that builds nothing: the durable epoch may go up, and a goroutine that comes to a `Build`
has just read it or has been there before. -/
structure Quiet (m m' : Mount) (phase phase' : Phase) : Prop where
  opens : m'.opens = m.opens
  durable : m.durable ≤ m'.durable
  bounded : m.durable < 2 ^ 64 → m'.durable < 2 ^ 64
  builds : ∀ {handle intended read opened}, phase' = .building handle intended read opened →
    phase = phase' ∨ read = m.durable ∧ opened = fenceEpochRef read intended

theorem advance_cases (moved : advance event m phase = some (m', phase')) :
    (∃ handle intended read opened, phase = .building handle intended read opened ∧
        phase' = .inserting handle opened ∧ m'.durable = m.durable + 1 ∧ m'.durable < 2 ^ 64 ∧
        m'.opens = m.opens ++ [⟨handle, intended, read, m.durable, opened⟩]) ∨
      Quiet m m' phase phase' := by
  unfold advance at moved
  split at moved
  case h_1 | h_6 | h_7 =>
    cases moved
    exact .inr ⟨rfl, le_rfl, id, nofun⟩
  case h_2 =>
    obtain ⟨-, same⟩ := Option.ite_none_left_eq_some.mp moved
    cases same
    exact .inr ⟨rfl, le_rfl, id, nofun⟩
  case h_3 =>
    split at moved <;>
    · cases moved
      exact .inr ⟨rfl, le_rfl, id, nofun⟩
  case h_4 =>
    split at moved
    · cases moved
      refine .inr ⟨rfl, le_rfl, id, ?_⟩
      intro handle intended read opened same
      obtain ⟨rfl, rfl, rfl, rfl⟩ := Phase.building.inj same
      exact .inr ⟨rfl, rfl⟩
    · cases moved
      exact .inr ⟨rfl, le_rfl, id, nofun⟩
  case h_5 handle intended read opened =>
    split at moved
    · -- the `Build` succeeds
      obtain ⟨raised, up, same⟩ := Option.map_eq_some_iff.mp moved
      cases same
      obtain ⟨below, rfl⟩ :
          m.durable + 1 < 2 ^ 64 ∧ { m with durable := m.durable + 1 } = raised := by
        simpa [raise] using up
      exact .inl ⟨handle, intended, read, opened, rfl, rfl, rfl, below, rfl⟩
    · obtain ⟨raised, up, same⟩ := Option.map_eq_some_iff.mp moved
      cases same
      obtain ⟨opens, le, below⟩ := of_raise up
      exact .inr ⟨opens, le, below, fun _ => .inl rfl⟩
    · obtain ⟨raised, up, same⟩ := Option.map_eq_some_iff.mp moved
      cases same
      obtain ⟨opens, le, below⟩ := of_raise up
      exact .inr ⟨opens, le, below, nofun⟩
    · cases moved
      exact .inr ⟨rfl, le_rfl, id, nofun⟩
  case h_8 =>
    obtain ⟨-, moved⟩ := Option.ite_none_right_eq_some.mp moved
    obtain ⟨raised, up, same⟩ := Option.map_eq_some_iff.mp moved
    cases same
    obtain ⟨opens, le, below⟩ := of_raise up
    exact .inr ⟨opens, le, below, nofun⟩
  case h_9 => cases moved

end Steps

structure Sound (durable : Nat) (o : Opened) : Prop where
  read_le : o.read ≤ o.before
  reported : o.reported = fenceEpochRef o.read o.intended
  established_le : o.established ≤ durable

/-- The opens have raised the durable epoch one after another. -/
structure Good (m : Mount) : Prop where
  bounded : m.durable < 2 ^ 64
  sound : ∀ o ∈ m.opens, Sound m.durable o
  ordered : m.opens.Pairwise fun earlier later => earlier.established < later.established

/-- What a goroutine knows: before a `Build` it has computed its epoch from an earlier read. -/
def Owns (m : Mount) (phase : Phase) : Prop :=
  ∀ handle intended read opened, phase = .building handle intended read opened →
    read ≤ m.durable ∧ opened = fenceEpochRef read intended

theorem Sound.mono {durable durable' : Nat} {o : Opened} (sound : Sound durable o)
    (le : durable ≤ durable') : Sound durable' o :=
  ⟨sound.read_le, sound.reported, sound.established_le.trans le⟩

variable {phase : Phase} {m m' : Mount}

theorem Owns.mono (owns : Owns m phase) (le : m.durable ≤ m'.durable) : Owns m' phase := by
  intro handle intended read opened same
  obtain ⟨earlier, computed⟩ := owns handle intended read opened same
  exact ⟨earlier.trans le, computed⟩

theorem advance_good {event : Event} {phase' : Phase} (good : Good m) (owns : Owns m phase)
    (moved : advance event m phase = some (m', phase')) :
    Good m' ∧ Owns m' phase' ∧ m.durable ≤ m'.durable := by
  rcases advance_cases moved with
    ⟨handle, intended, read, opened, rfl, rfl, durable, bounded, opens⟩ | quiet
  · obtain ⟨earlier, computed⟩ := owns handle intended read opened rfl
    have le : m.durable ≤ m'.durable := by omega
    refine ⟨⟨bounded, ?_, ?_⟩, nofun, le⟩
    · intro o mem
      rw [opens] at mem
      rcases mem_snoc.mp mem with old | rfl
      · exact (good.sound o old).mono le
      · exact ⟨earlier, computed, durable.ge⟩
    · rw [opens, List.pairwise_append]
      refine ⟨good.ordered, List.pairwise_singleton _ _, ?_⟩
      intro o old o' new
      obtain rfl := List.mem_singleton.mp new
      exact Nat.lt_succ_of_le (good.sound o old).established_le
  · refine ⟨⟨quiet.bounded good.bounded, ?_, ?_⟩, ?_, quiet.durable⟩
    · intro o mem
      rw [quiet.opens] at mem
      exact (good.sound o mem).mono quiet.durable
    · rw [quiet.opens]
      exact good.ordered
    · intro handle intended read opened same
      rcases quiet.builds same with rfl | ⟨rfl, computed⟩
      · exact owns.mono quiet.durable handle intended read opened same
      · exact ⟨quiet.durable, computed⟩

theorem good_of_reaches {durable : UInt64} {s : Goroutines}
    (reached : machine.Reaches anyAction (initial durable) s) : Good s.object := by
  refine (Threads.invariant Good (fun _ => Owns) reached ⟨durable.toNat_lt, nofun, .nil⟩
    (fun _ => nofun) ?_).1
  intro s name event m' phase' _ good owns _ moved
  obtain ⟨kept, mine, le⟩ := advance_good good (owns name) moved
  exact ⟨kept, mine, fun other _ => (owns other).mono le⟩

end Mount

theorem Mount.Sound.exact_iff {durable : Nat} {o : Opened} (sound : Mount.Sound durable o)
    (bounded : durable < 2 ^ 64) : o.reported = o.established ↔ o.Undisturbed := by
  have read_le := sound.read_le
  have established_le := sound.established_le
  unfold Opened.established at established_le ⊢
  have floor : (o.read + 1) % 2 ^ 64 = o.read + 1 := Nat.mod_eq_of_lt (by omega)
  rw [sound.reported, fenceEpochRef, floor, Opened.Undisturbed]
  split <;> omega

/-- **When reported epochs are exact.** Every open reports the durable epoch its `Build` has
established, and a later open a greater one than an earlier, exactly if every open was undisturbed.
-/
theorem open_epochs_exact_iff (durable : UInt64) (s : Mount.Goroutines)
    (reached : Mount.machine.Reaches anyAction (Mount.initial durable) s) :
    ((∀ o ∈ s.object.opens, o.reported = o.established) ∧
        s.object.opens.Pairwise fun earlier later => earlier.reported < later.reported) ↔
      ∀ o ∈ s.object.opens, o.Undisturbed := by
  have good := Mount.good_of_reaches reached
  have exact_iff : ∀ o ∈ s.object.opens, o.reported = o.established ↔ o.Undisturbed :=
    fun o member => (good.sound o member).exact_iff good.bounded
  constructor
  · rintro ⟨exact_, -⟩ o member
    exact (exact_iff o member).mp (exact_ o member)
  · intro undisturbed
    have exact_ : ∀ o ∈ s.object.opens, o.reported = o.established :=
      fun o member => (exact_iff o member).mpr (undisturbed o member)
    refine ⟨exact_, good.ordered.imp_of_mem ?_⟩
    intro earlier later member member' lt
    rw [exact_ earlier member, exact_ later member']
    exact lt

/-- One handle opens, is closed, and another one opens with a floor that is the next epoch. -/
def Mount.oneAfterAnother : List (Nat × Event) :=
  [(0, .call 0 1), (0, .lock), (0, .check), (0, .read true), (0, .build .ok), (0, .insert),
    (1, .close 0), (1, .call 1 5), (1, .lock), (1, .check), (1, .read true), (1, .build .ok),
    (1, .insert)]

theorem open_epochs_exact_one_after_another :
    ∃ s, Mount.machine.Reaches anyAction (Mount.initial 3) s ∧
      s.object.opens = [⟨0, 1, 3, 3, 4⟩, ⟨1, 5, 4, 4, 5⟩] ∧
      (∀ o ∈ s.object.opens, o.reported = o.established) ∧
        s.object.opens.Pairwise fun earlier later => earlier.reported < later.reported := by
  obtain ⟨s, reached, opens⟩ := Mount.machine.exists_reaches_of_run anyAction
    Mount.oneAfterAnother (Mount.initial 3)
    (fun s => s.object.opens = [⟨0, 1, 3, 3, 4⟩, ⟨1, 5, 4, 4, 5⟩]) (by decide)
  refine ⟨s, reached, opens, (open_epochs_exact_iff 3 s reached).mpr ?_⟩
  rw [opens]
  decide

/-- Two handles read the manifest before either builds, and a third one has a floor far up. -/
def Mount.readBeforeBuild : List (Nat × Event) :=
  [(0, .call 0 1), (0, .lock), (0, .check), (0, .read true),
    (1, .call 1 1), (1, .lock), (1, .check), (1, .read true),
    (0, .build .ok), (0, .insert), (1, .build .ok), (1, .insert),
    (2, .call 2 9), (2, .lock), (2, .check), (2, .read true), (2, .build .ok), (2, .insert)]

/-- Two opens that have both succeeded report epoch 1, though the later has fenced the earlier and
established epoch 2; and an open with floor 9 reports 9 when it has established 3. -/
theorem open_epochs_collide :
    ∃ s, Mount.machine.Reaches anyAction (Mount.initial 0) s ∧
      (s.phase 0 = .returned 1 ∧ s.phase 1 = .returned 1 ∧ s.phase 2 = .returned 9) ∧
      s.object.opens.map (fun o => (o.reported, o.established)) = [(1, 1), (1, 2), (9, 3)] :=
  Mount.machine.exists_reaches_of_run anyAction Mount.readBeforeBuild (Mount.initial 0)
    (fun s => (s.phase 0 = .returned 1 ∧ s.phase 1 = .returned 1 ∧ s.phase 2 = .returned 9) ∧
      s.object.opens.map (fun o => (o.reported, o.established)) = [(1, 1), (1, 2), (9, 3)])
    (by decide)

theorem reaches_openUnit {s : Mount.Goroutines} {name handle intended opened : Nat}
    {p p' : Handoff.Place} (idle : s.phase name = .idle) (free : s.object.latch handle = false)
    (held : s.object.held handle = p.handle) (durable : s.object.durable = p.durable)
    (floor : intended ≤ p.durable + 1) (bounded : p.durable + 1 < 2 ^ 64)
    (openedAt : p.openUnit intended = some (opened, p')) :
    ∃ s', Mount.machine.Reaches anyAction s s' ∧ s'.phase name = .returned opened ∧
      s'.object.durable = p'.durable ∧ s'.object.held handle = p'.handle := by
  unfold Handoff.Place.openUnit at openedAt
  split at openedAt
  case h_1 => cases openedAt
  case h_2 unheld =>
    rw [max_eq_right floor] at openedAt
    cases openedAt
    have computed : fenceEpochRef p.durable intended = p.durable + 1 := by
      rw [fenceEpochRef, Nat.mod_eq_of_lt bounded]
      split <;> omega
    let events : List Event := [.call handle intended, .lock, .check, .read true, .build .ok,
      .insert]
    obtain ⟨s', ran, ended⟩ : ∃ s', Mount.machine.run anyAction
        (events.map (Prod.mk name)) s = some s' ∧ s'.phase name = .returned (p.durable + 1) ∧
          s'.object.durable = p.durable + 1 ∧ s'.object.held handle = some (p.durable + 1) := by
      simp only [Nat.reducePow] at bounded
      simp [events, run, anyAction, Mount.machine, Threads.machine, Threads.step,
        Mount.program, Mount.advance, Mount.lock, Mount.unlock, Mount.raise, idle, free, held,
        unheld, durable, bounded, computed]
    exact ⟨s', reaches_of_run ran, ended⟩

end Shale.Slate
