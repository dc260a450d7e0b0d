import Shale.Foundation.Threads
import Shale.Replication.ApplyBatch
import Shale.Replication.ReadSweep
import Shale.Transaction.Position

/-!
# The stamp clock as a lock-free object

`stampclock.go` is one atomic word. `Next` reads the wall clock, loads the word and swaps in the
greater of the reading and the word's successor; `Observe` loads the word and swaps in the stamp it
was given if that is ahead. A swap that fails starts its loop again. Any number of goroutines do
so at the same time, each access a step of its own.

A call ends with its last access, so that the order in which calls end is one in which the atomic
operations of the other modules explain them (`ends_of_reaches`): what `Next` returns is above
everything that has ended before, and at the ceiling it stays there.
-/

namespace Shale.StampClock

open Machine List

open Position (maxStamp nextStamp lt_nextStamp)

/-- What has ended on the clock: a `Next` with the reading it used and how much had ended when it
began, an `Observe`, and a pass of the node through code that observes stamps. -/
inductive Done where
  | issued (stamp wall began : Nat)
  | observed (ts : Nat)
  | passed (stamps : List Nat)
deriving DecidableEq

def Done.stamps : Done → List Nat
  | issued stamp _ _ => [stamp]
  | observed ts => [ts]
  | passed stamps => stamps

/-- What a `Next` has returned. -/
def Done.issued? : Done → Option Nat
  | issued stamp _ _ => some stamp
  | observed _ | passed _ => none

theorem Done.mem_stamps {entry : Done} {stamp : Nat} (same : entry.issued? = some stamp) :
    stamp ∈ entry.stamps := by
  cases entry with
  | issued => exact mem_singleton.mpr (Option.some.inj same).symm
  | observed | passed => cases same

/-- The mark `last`, and what has ended, in order. -/
structure Clock where
  last : Nat
  done : List Done
deriving DecidableEq

/-- How far a goroutine has come. A `Next` is before its read of the wall clock, before the load,
before the swap; a pass has stamps left to observe, and its `Observe` is before the load or before
the swap. -/
inductive Phase where
  | idle
  | reading (began : Nat)
  | loading (began wall : Nat)
  | swapping (began wall last next : Nat)
  | going (rest stamps : List Nat)
  | observing (ts : Nat) (rest stamps : List Nat)
  | raising (last ts : Nat) (rest stamps : List Nat)
deriving DecidableEq

def Phase.next? : Phase → Option Nat
  | reading began | loading began _ | swapping began _ _ _ => some began
  | idle | going _ _ | observing _ _ _ | raising _ _ _ _ => none

inductive Event where
  | next
  | pass (stamps : List Nat)
  | wall (reading : Int64)
  | load
  | swap
  | go
deriving DecidableEq

def wallNow (reading : Int64) : Nat :=
  if reading.toInt < 0 then 0 else reading.toInt.toNat

namespace Clock

def record (entry : Done) (last : Nat) (c : Clock) : Clock := ⟨last, c.done ++ [entry]⟩

def advance : Event → Clock → Phase → Option (Clock × Phase)
  | .next, c, .idle => some (c, .reading c.done.length)
  | .wall reading, c, .reading began => some (c, .loading began (wallNow reading))
  | .load, c, .loading began wall =>
    if wall ≤ c.last then
      if c.last = maxStamp then some (c.record (.issued maxStamp wall began) c.last, .idle)
      else some (c, .swapping began wall c.last ((c.last + 1) % 2 ^ 64))
    else some (c, .swapping began wall c.last wall)
  | .swap, c, .swapping began wall last next =>
    if c.last = last then some (c.record (.issued next wall began) next, .idle)
    else some (c, .reading began)
  | .pass stamps, c, .idle =>
    if ∀ ts ∈ stamps, ts < 2 ^ 64 then some (c, .going stamps stamps) else none
  | .go, c, .going [] stamps => some (c.record (.passed stamps) c.last, .idle)
  | .go, c, .going (ts :: rest) stamps => some (c, .observing ts rest stamps)
  | .load, c, .observing ts rest stamps =>
    if ts ≤ c.last then some (c.record (.observed ts) c.last, .going rest stamps)
    else some (c, .raising c.last ts rest stamps)
  | .swap, c, .raising last ts rest stamps =>
    if c.last = last then some (c.record (.observed ts) ts, .going rest stamps)
    else some (c, .observing ts rest stamps)
  | _, _, _ => none

abbrev Goroutines := Threads Clock Nat Phase

def program : Threads.Program Clock Nat Event Phase :=
  fun name event s => advance event s.object (s.phase name)

def machine : Machine Goroutines (Nat × Event) := Threads.machine program

/-- The zero value of the clock. -/
def initial : Goroutines := ⟨⟨0, []⟩, fun _ => .idle⟩

end Clock

def atomic : Machine Nat Done where
  step := fun entry last =>
    match entry with
    | .issued stamp wall _ => if stamp = nextStamp last wall then some stamp else none
    | .observed ts => some (max last ts)
    | .passed stamps => if ∀ ts ∈ stamps, ts ≤ last then some last else none

section Atomic

variable {entry : Done} {log : List Done} {first last : Nat}

theorem of_atomic_step (stepped : atomic.step entry first = some last) :
    first ≤ last ∧ (∀ ts ∈ entry.stamps, ts ≤ last) ∧
      ∀ stamp, entry.issued? = some stamp → first < stamp ∨ maxStamp ≤ stamp := by
  cases entry with
  | issued stamp wall began =>
    obtain ⟨rfl, rfl⟩ := of_guard stepped
    refine ⟨Position.le_nextStamp first wall, by simp [Done.stamps], ?_⟩
    intro stamp same
    cases same
    by_cases top : first = maxStamp
    · exact .inr (top ▸ Position.le_nextStamp first wall)
    · exact .inl (lt_nextStamp top wall)
  | observed ts =>
    cases stepped
    exact ⟨by omega, by simp [Done.stamps], nofun⟩
  | passed stamps =>
    obtain ⟨below, rfl⟩ := of_guard stepped
    exact ⟨le_rfl, below, nofun⟩

section

variable (ran : atomic.run anyAction log first = some last)
include ran

theorem of_atomic_run :
    first ≤ last ∧ (∀ entry ∈ log, ∀ ts ∈ entry.stamps, ts ≤ last) ∧
      ∀ entry ∈ log, ∀ stamp, entry.issued? = some stamp → first < stamp ∨ maxStamp ≤ stamp := by
  induction log generalizing first with
  | nil =>
    cases ran
    exact ⟨le_rfl, nofun, nofun⟩
  | cons entry rest ih =>
    obtain ⟨mid, -, stepped, continued⟩ := of_run_cons ran
    obtain ⟨up, reached, above⟩ := of_atomic_step stepped
    obtain ⟨onward, later, issued⟩ := ih continued
    refine ⟨up.trans onward, ?_, ?_⟩
    · rintro other (_ | ⟨_, listed⟩) ts about
      · exact (reached ts about).trans onward
      · exact later other listed ts about
    · rintro other (_ | ⟨_, listed⟩) stamp same
      · exact above stamp same
      · exact (issued other listed stamp same).imp_left up.trans_lt

theorem pairwise_of_atomic_run :
    log.Pairwise fun earlier later => ∀ stamp, later.issued? = some stamp →
      (∀ ts ∈ earlier.stamps, ts < stamp) ∨ maxStamp ≤ stamp := by
  induction log generalizing first with
  | nil => exact .nil
  | cons entry rest ih =>
    obtain ⟨mid, -, stepped, continued⟩ := of_run_cons ran
    refine .cons ?_ (ih continued)
    intro later listed stamp same
    have reached := (of_atomic_step stepped).2.1
    exact ((of_atomic_run continued).2.2 later listed stamp same).imp_left
      fun above ts about => (reached ts about).trans_lt above

end

end Atomic

namespace Clock

/-- The mark is a `uint64`, and a `Next` has begun before it has ended. -/
structure Good (c : Clock) : Prop where
  bounded : c.last < 2 ^ 64
  began_le : ∀ {i : Nat} {stamp wall began : Nat},
    c.done[i]? = some (.issued stamp wall began) → began ≤ i

/-- What a pass knows: what it has still to observe is a `uint64`, and the rest is not above the
mark. -/
structure Pending (c : Clock) (todo stamps : List Nat) : Prop where
  bounded : ∀ ts ∈ todo, ts < 2 ^ 64
  below : ∀ ts ∈ stamps, ts ∈ todo ∨ ts ≤ c.last

/-- What a goroutine knows. -/
def Owns (c : Clock) : Phase → Prop
  | .idle => True
  | .reading began => began ≤ c.done.length
  | .loading began wall => began ≤ c.done.length ∧ wall < 2 ^ 64
  | .swapping began wall last next =>
    began ≤ c.done.length ∧ last ≠ maxStamp ∧ next < 2 ^ 64 ∧ next = nextStamp last wall
  | .going rest stamps => Pending c rest stamps
  | .observing ts rest stamps => Pending c (ts :: rest) stamps
  | .raising last ts rest stamps => last < ts ∧ Pending c (ts :: rest) stamps

def Ends (c c' : Clock) : Prop :=
  ∃ log, c'.done = c.done ++ log ∧ atomic.run anyAction log c.last = some c'.last

section Steps

variable {event : Event} {c c' : Clock} {phase phase' : Phase} {entry : Done} {last : Nat}

theorem Ends.stays : Ends c c := ⟨[], (append_nil _).symm, rfl⟩

theorem Ends.one (executed : atomic.step entry c.last = some last) : Ends c (c.record entry last) :=
  ⟨[entry], rfl, by simp [run, anyAction, executed, record]⟩

theorem Ends.trans {c'' : Clock} (first : Ends c c') (second : Ends c' c'') : Ends c c'' := by
  obtain ⟨log, done, ran⟩ := first
  obtain ⟨log', done', ran'⟩ := second
  refine ⟨log ++ log', by rw [done', done, append_assoc], ?_⟩
  rw [run_append, ran, Option.bind_some, ran']

theorem Ends.last_le (ends : Ends c c') : c.last ≤ c'.last := by
  obtain ⟨log, -, ran⟩ := ends
  exact (of_atomic_run ran).1

theorem Ends.length_le (ends : Ends c c') : c.done.length ≤ c'.done.length := by
  obtain ⟨log, done, -⟩ := ends
  rw [done, length_append]
  omega

theorem Pending.mono {todo stamps : List Nat} (pending : Pending c todo stamps)
    (le : c.last ≤ c'.last) : Pending c' todo stamps :=
  ⟨pending.bounded, fun ts listed => (pending.below ts listed).imp_right le.trans'⟩

theorem Pending.tail {ts : Nat} {rest stamps : List Nat} (pending : Pending c (ts :: rest) stamps)
    (le : c.last ≤ c'.last) (reached : ts ≤ c'.last) : Pending c' rest stamps := by
  refine ⟨fun other listed => pending.bounded other (mem_cons_of_mem _ listed), ?_⟩
  intro other listed
  rcases pending.below other listed with todo | below
  · rcases mem_cons.mp todo with rfl | left
    · exact .inr reached
    · exact .inl left
  · exact .inr (below.trans le)

theorem Owns.mono (owns : Owns c phase) (ends : Ends c c') : Owns c' phase := by
  have length_le := ends.length_le
  cases phase with
  | idle => trivial
  | reading began => exact owns.trans length_le
  | loading began wall | swapping began wall last next => exact ⟨owns.1.trans length_le, owns.2⟩
  | going rest stamps | observing ts rest stamps => exact Pending.mono owns ends.last_le
  | raising last ts rest stamps => exact ⟨owns.1, Pending.mono owns.2 ends.last_le⟩

theorem Good.record (good : Good c) (bounded : last < 2 ^ 64)
    (began : ∀ {stamp wall began}, entry = .issued stamp wall began → began ≤ c.done.length) :
    Good (c.record entry last) := by
  refine ⟨bounded, ?_⟩
  intro i stamp wall from_ found
  rw [Clock.record, List.getElem?_append] at found
  split at found
  · exact good.began_le found
  case isFalse past =>
    obtain rfl := mem_singleton.mp (mem_of_getElem? found)
    exact (began rfl).trans (Nat.le_of_not_lt past)

theorem wallNow_lt (reading : Int64) : wallNow reading < 2 ^ 64 := by
  unfold wallNow
  split
  · omega
  · have := reading.toInt_lt
    omega

theorem advance_good (good : Good c) (owns : Owns c phase)
    (moved : advance event c phase = some (c', phase')) : Good c' ∧ Owns c' phase' ∧ Ends c c' := by
  have bounded := good.bounded
  unfold advance at moved
  split at moved
  case h_1 =>
    cases moved
    exact ⟨good, le_rfl, .stays⟩
  case h_2 reading began =>
    cases moved
    exact ⟨good, ⟨owns, wallNow_lt reading⟩, .stays⟩
  case h_3 began wall =>
    obtain ⟨started, small⟩ := owns
    split at moved
    case isTrue behind =>
      split at moved
      case isTrue top =>
        -- the ceiling: `Next` returns it, and the mark stays
        cases moved
        have issued : nextStamp c.last wall = c.last := by
          rw [nextStamp, if_pos behind, if_pos top, top]
        refine ⟨good.record bounded ?_, trivial, .one ?_⟩
        · rintro _ _ _ ⟨⟩
          exact started
        · simp [atomic, issued, ← top]
      case isFalse below =>
        cases moved
        have fits : c.last + 1 < 2 ^ 64 := by
          unfold maxStamp at below
          omega
        rw [Nat.mod_eq_of_lt fits]
        refine ⟨good, ⟨started, below, fits, ?_⟩, .stays⟩
        rw [nextStamp, if_pos behind, if_neg below]
    case isFalse ahead =>
      cases moved
      have below : c.last ≠ maxStamp := by
        unfold maxStamp
        omega
      refine ⟨good, ⟨started, below, small, ?_⟩, .stays⟩
      rw [nextStamp, if_neg ahead]
  case h_4 began wall last next =>
    obtain ⟨started, -, small, computed⟩ := owns
    split at moved
    case isTrue same =>
      cases moved
      refine ⟨good.record small ?_, trivial, .one ?_⟩
      · rintro _ _ _ ⟨⟩
        exact started
      · simp [atomic, same, computed]
    case isFalse =>
      cases moved
      exact ⟨good, started, .stays⟩
  case h_5 stamps =>
    obtain ⟨small, same⟩ := Option.ite_none_right_eq_some.mp moved
    cases same
    exact ⟨good, ⟨small, fun ts listed => .inl listed⟩, .stays⟩
  case h_6 stamps =>
    cases moved
    have below : ∀ ts ∈ stamps, ts ≤ c.last :=
      fun ts listed => (Pending.below owns ts listed).resolve_left not_mem_nil
    refine ⟨good.record bounded nofun, trivial, .one ?_⟩
    simpa [atomic] using below
  case h_7 =>
    cases moved
    exact ⟨good, owns, .stays⟩
  case h_8 ts rest stamps =>
    split at moved
    case isTrue seen =>
      cases moved
      refine ⟨good.record bounded nofun, Pending.tail owns le_rfl seen, .one ?_⟩
      simp [atomic, seen]
    case isFalse ahead =>
      cases moved
      exact ⟨good, ⟨Nat.lt_of_not_le ahead, owns⟩, .stays⟩
  case h_9 last ts rest stamps =>
    obtain ⟨ahead, pending⟩ := owns
    split at moved
    case isTrue same =>
      cases moved
      have small := pending.bounded ts mem_cons_self
      refine ⟨good.record small nofun, pending.tail ?_ le_rfl, .one ?_⟩
      · exact (same ▸ ahead).le
      · simp only [atomic, same, max_eq_right ahead.le]
    case isFalse =>
      cases moved
      exact ⟨good, pending, .stays⟩
  case h_10 => cases moved

end Steps

section Runs

variable {s s' : Goroutines}

theorem owns_of_reaches (reached : machine.Reaches Machine.anyAction initial s) :
    Good s.object ∧ ∀ name, Owns s.object (s.phase name) := by
  refine Threads.invariant Good (fun _ => Owns) reached ⟨by decide, nofun⟩ (fun _ => trivial) ?_
  intro s name event c' phase' _ good owns _ moved
  obtain ⟨kept, mine, ends⟩ := advance_good good (owns name) moved
  exact ⟨kept, mine, fun other _ => (owns other).mono ends⟩

theorem ends_of_reaches (reached : machine.Reaches Machine.anyAction initial s)
    (onward : machine.Reaches anyAction s s') : Ends s.object s'.object := by
  induction onward with
  | refl => exact .stays
  | @tail mid _ action onward _ stepped ih =>
    obtain ⟨name, event⟩ := action
    obtain ⟨good, owns⟩ := owns_of_reaches (reached.trans onward)
    obtain ⟨c', phase', moved, rfl⟩ := Threads.of_step stepped
    exact ih.trans (advance_good good (owns name) moved).2.2

end Runs

theorem returns_at_ceiling {s : Goroutines} {name began : Nat}
    (owns : Owns s.object (s.phase name)) (top : s.object.last = maxStamp)
    (going : (s.phase name).next? = some began) :
    ∃ wall s', machine.Reaches (fun _ action => action.1 = name) s s' ∧ s'.phase name = .idle ∧
      s'.object = s.object.record (.issued maxStamp wall began) maxStamp := by
  have small : ∀ {wall}, wall < 2 ^ 64 → wall ≤ maxStamp := by
    unfold maxStamp
    omega
  have zero := small (wallNow_lt 0)
  suffices ∃ (events : List Event) (wall : Nat) (s' : Goroutines),
      machine.run (fun _ action => action.1 = name) (events.map (Prod.mk name)) s = some s' ∧
        s'.phase name = .idle ∧
          s'.object = s.object.record (.issued maxStamp wall began) maxStamp by
    obtain ⟨events, wall, s', ran, ended⟩ := this
    exact ⟨wall, s', reaches_of_run ran, ended⟩
  cases phase : s.phase name with
  | idle | going rest stamps | observing ts rest stamps | raising last ts rest stamps =>
    simp [phase, Phase.next?] at going
  | reading began' =>
    obtain rfl : began' = began := by simpa [phase, Phase.next?] using going
    exact ⟨[.wall 0, .load], wallNow 0, by
      simp [run, machine, Threads.machine, Threads.step, program, advance, phase, top,
        zero]⟩
  | loading began' wall =>
    obtain rfl : began' = began := by simpa [phase, Phase.next?] using going
    rw [phase] at owns
    exact ⟨[.load], wall, by
      simp [run, machine, Threads.machine, Threads.step, program, advance, phase, top,
        small owns.2]⟩
  | swapping began' wall last next =>
    obtain rfl : began' = began := by simpa [phase, Phase.next?] using going
    rw [phase] at owns
    exact ⟨[.swap, .wall 0, .load], wallNow 0, by
      simp [run, machine, Threads.machine, Threads.step, program, advance, phase, top,
        zero, owns.2.1.symm]⟩

end Clock

section Passes

open ApplyBatch (Answers Codec EnvelopeWrite applyLoop applyEnvelopesTx txApplyIfNewer)

def applyObserves {Value Stamp : Type} [LinearOrder Stamp] (codec : Codec Value Stamp)
    (answers : Answers) (db : Store Value) (i : Nat) (tx : MemoryTx Value) :
    List (EnvelopeWrite Value) → List Nat
  | [] => []
  | w :: rest =>
    match codec.decodeStamp w.envelope with
    | .error _ => []
    | .ok stamp =>
      codec.timestamp stamp ::
        if answers.gets i then
          let (apply, stored) := txApplyIfNewer codec stamp (tx.get db w.key)
          codec.timestamp stored ::
            if apply then
              if answers.puts i then
                applyObserves codec answers db (i + 1) (tx.put w.key w.envelope) rest
              else []
            else applyObserves codec answers db (i + 1) tx rest
        else []

/-- The paths that observe stamps, with what they meet: an apply, a commit with what `tx.Get` has
returned for the checks it has made and for the blind keys it has noted, and a sweep. -/
inductive Pass where
  | apply (answers : Answers) (db : Store Bytes) (writes : List (EnvelopeWrite Bytes))
  | commit (checked noted : List (Option Position.Cell))
  | read (decode : Bytes → Except String Envelope) (opts : ReadOpts) (stableR : Nat)
      (site : ReadSweep.RepairSite) (results : List ReadSweep.LegResult)

namespace Pass

open Position (envelopeLayout)

def observes : Pass → List Nat
  | apply answers db writes =>
    if answers.begins then applyObserves ApplyBatch.wire answers db 0 .begin writes else []
  | commit checked noted =>
    checked.filterMap (fun got => (envelopeLayout.casReadPayload got).map fun r => r.2.timestamp) ++
      noted.filterMap fun got => (envelopeLayout.blindStamp got).map Stamp.timestamp
  | read decode opts stableR site results =>
    [(ReadSweep.getReplicatedUnitOnceOpts decode opts stableR site results).observed]

/-- The timestamps of the envelopes that a pass has applied, validated or read: those of a batch
that was committed, those that the checks of a commit and its blind keys have found, and that of the
winner of a sweep. -/
def Sees : Pass → Nat → Prop
  | apply answers db writes, ts =>
    (∃ applied, (applyEnvelopesTx ApplyBatch.wire answers db 0 writes).2.2 = .ok applied) ∧
      ∃ w ∈ writes, ∃ stamp start, Wire.decodeStamp w.envelope = .ok (stamp, start) ∧
        ts = stamp.timestampNanos
  | commit checked noted, ts =>
    ∃ stamp : Stamp, ts = stamp.timestamp ∧
      ((∃ got ∈ checked, ∃ found, envelopeLayout.casReadPayload got = some (found, stamp)) ∨
        ∃ got ∈ noted, envelopeLayout.blindStamp got = some stamp)
  | read decode opts stableR site results, ts =>
    ts = (ReadSweep.getReplicatedUnitOnceOpts decode opts stableR site results).observed

end Pass

theorem applyLoop_observes {Value Stamp : Type} [LinearOrder Stamp] (codec : Codec Value Stamp)
    (answers : Answers) (db : Store Value) (writes : List (EnvelopeWrite Value)) (i clock : Nat)
    (tx : MemoryTx Value) (applied : Bool) :
    (applyLoop codec answers db i clock tx applied writes).1 =
        (applyObserves codec answers db i tx writes).foldl max clock ∧
      ∀ result, (applyLoop codec answers db i clock tx applied writes).2 = .ok result →
        ∀ w ∈ writes, ∀ stamp, codec.decodeStamp w.envelope = .ok stamp →
          codec.timestamp stamp ∈ applyObserves codec answers db i tx writes := by
  induction writes generalizing i clock tx applied with
  | nil => exact ⟨rfl, fun _ _ _ none => absurd none not_mem_nil⟩
  | cons w rest ih =>
    rw [applyLoop, applyObserves]
    cases decoded : codec.decodeStamp w.envelope with
    | error message => exact ⟨rfl, fun _ ended => by cases ended⟩
    | ok own =>
      cases gets : answers.gets i with
      | false => exact ⟨rfl, fun _ ended => by cases ended⟩
      | true =>
        dsimp only
        rw [if_pos rfl, if_pos rfl]
        generalize txApplyIfNewer codec own (tx.get db w.key) = decision
        obtain ⟨apply, stored⟩ := decision
        -- the entry's own stamp comes first, the others are those of the rest
        have first : ∀ {other stamps}, other ∈ w :: rest →
            (∀ w ∈ rest, ∀ stamp, codec.decodeStamp w.envelope = .ok stamp →
              codec.timestamp stamp ∈ stamps) →
            ∀ stamp, codec.decodeStamp other.envelope = .ok stamp → codec.timestamp stamp ∈
              codec.timestamp own :: codec.timestamp stored :: stamps := by
          intro other stamps listed later stamp found
          rcases mem_cons.mp listed with rfl | listed
          · cases decoded.symm.trans found
            exact mem_cons_self
          · exact mem_cons_of_mem _ (mem_cons_of_mem _ (later other listed stamp found))
        cases apply with
        | false =>
          obtain ⟨mark, seen⟩ := ih (i + 1)
            (max (max clock (codec.timestamp own)) (codec.timestamp stored)) tx applied
          exact ⟨mark, fun result ended other listed => first listed (seen result ended)⟩
        | true =>
          cases puts : answers.puts i with
          | false => exact ⟨rfl, fun _ ended => by cases ended⟩
          | true =>
            obtain ⟨mark, seen⟩ := ih (i + 1)
              (max (max clock (codec.timestamp own)) (codec.timestamp stored))
              (tx.put w.key w.envelope) true
            exact ⟨mark, fun result ended other listed => first listed (seen result ended)⟩

theorem Pass.mem_observes {pass : Pass} {ts : Nat} (sees : pass.Sees ts) : ts ∈ pass.observes := by
  cases pass with
  | apply answers db writes =>
    obtain ⟨⟨applied, done⟩, w, listed, stamp, start, decoded, rfl⟩ := sees
    have own : ApplyBatch.wire.decodeStamp w.envelope = .ok stamp := by
      simp [ApplyBatch.wire, decoded, Except.map]
    obtain ⟨-, seen⟩ := applyLoop_observes ApplyBatch.wire answers db writes 0 0 .begin false
    rw [observes]
    unfold applyEnvelopesTx at done
    split at done
    case isTrue begins =>
      rw [if_pos begins]
      split at done
      · cases done
      case h_2 clock tx any looped => exact seen (tx, any) (by rw [looped]) w listed stamp own
    case isFalse => cases done
  | commit checked noted =>
    obtain ⟨stamp, rfl, ⟨got, listed, found, read⟩ | ⟨got, listed, read⟩⟩ := sees
    · exact mem_append_left _ (mem_filterMap.mpr ⟨got, listed, by rw [read]; rfl⟩)
    · exact mem_append_right _ (mem_filterMap.mpr ⟨got, listed, by rw [read]; rfl⟩)
  | read decode opts stableR site results => exact mem_singleton.mpr sees

end Passes

open Clock (machine initial Goroutines)

/-- What holds between two states of a run. Below the ceiling the stamps issued are distinct and
above all that had ended when their `Next` began, what the node had seen by then included; at the
ceiling the mark stays, and `Next` returns it and nothing else. -/
structure Ratchet (s s' : Goroutines) : Prop where
  rises : s.object.last ≤ s'.object.last
  distinct : s'.object.last < maxStamp → (s'.object.done.filterMap Done.issued?).Nodup
  above : s'.object.last < maxStamp → ∀ stamp wall began,
    .issued stamp wall began ∈ s'.object.done → ∀ entry ∈ s'.object.done.take began,
      ∀ ts ∈ entry.stamps, ts < stamp
  unseen : s'.object.last < maxStamp → ∀ stamp wall began,
    .issued stamp wall began ∈ s'.object.done → ∀ (pass : Pass) (ts : Nat), pass.Sees ts →
      .passed pass.observes ∈ s'.object.done.take began → ts < stamp
  stays : s.object.last = maxStamp → s'.object.last = maxStamp
  saturates : s.object.last = maxStamp → ∀ entry ∈ s'.object.done.drop s.object.done.length,
    ∀ stamp, entry.issued? = some stamp → stamp = maxStamp
  returns : s.object.last = maxStamp → ∀ name began, (s'.phase name).next? = some began →
    ∃ wall s'', machine.Reaches (fun _ action => action.1 = name) s' s'' ∧
      s''.phase name = .idle ∧
      s''.object = s'.object.record (.issued maxStamp wall began) maxStamp

section Ratchet

variable {s s' : Goroutines}

section

variable (reached : machine.Reaches anyAction initial s) (low : s.object.last < maxStamp)
include reached low

theorem pairwise_done :
    s.object.done.Pairwise fun earlier later => ∀ stamp, later.issued? = some stamp →
      ∀ ts ∈ earlier.stamps, ts < stamp := by
  obtain ⟨log, done, ran⟩ := Clock.ends_of_reaches .refl reached
  obtain rfl := done
  refine (pairwise_of_atomic_run ran).imp_of_mem ?_
  intro earlier later _ mem ordered stamp same
  have le := (of_atomic_run ran).2.1 later mem stamp (Done.mem_stamps same)
  exact (ordered stamp same).resolve_right (by omega)

theorem lt_of_began {stamp wall began : Nat} (issued : .issued stamp wall began ∈ s.object.done)
    {entry : Done} (before : entry ∈ s.object.done.take began) {ts : Nat}
    (about : ts ∈ entry.stamps) :
    ts < stamp := by
  obtain ⟨i, here, found⟩ := mem_iff_getElem.mp issued
  obtain ⟨j, there, rfl⟩ := mem_iff_getElem.mp before
  rw [length_take] at there
  have began_le := (Clock.owns_of_reaches reached).1.began_le
    (List.getElem?_eq_some_iff.mpr ⟨here, found⟩)
  rw [getElem_take] at about
  exact pairwise_iff_getElem.mp (pairwise_done reached low) j i (by omega) here (by omega)
    stamp (by rw [found]; rfl) ts about

end

end Ratchet

/-- A goroutine applies an envelope of stamp 7 while one `Next` has loaded the clock and another has
not begun; the wall clock is behind, and once before 1970. -/
def overlapping : List (Nat × Event) :=
  [(0, .pass [7, 0]), (0, .go), (1, .next), (1, .wall (-3)), (0, .load), (1, .load), (0, .swap),
    (0, .go), (0, .load), (0, .go), (1, .swap), (2, .next), (2, .wall 5), (2, .load), (2, .swap),
    (1, .wall 6), (1, .load), (1, .swap)]

end Shale.StampClock
