import Mathlib.Data.List.Basic
import Shale.Foundation.Threads

/-!
# Group-committed flushes

`flushGroup` of `cas_flushgroup.go` shares one `Flush` among the calls that wait for it. A call
looks up the state object of its flusher, or makes one, enqueues itself there, and spawns a runner
if none is at work. The runner takes the calls that are enqueued, flushes, sends each of them the
result, and goes on as long as more have come. `forget` drops the map entry of a flusher, so that
a later call may make a second object for it while the runner of the first goes on.

A goroutine is named by its call. A state object is named by the call that made it, and a runner
by the call that spawned it.
-/

namespace Shale.FlushGroup

open List Machine

open Function (update update_self update_of_ne forall_update_iff)

abbrev Flusher := Nat

/-- What `Flush` returns: nil, or an error with its text. -/
abbrev Result := Option String

/-- `flushGroupState`. What the code does not keep: the call that has claimed the runner, and the
waiters that the runner has taken and not yet answered. -/
structure Group where
  flushing : Bool
  pending : List Nat
  runner : Nat
  batch : List Nat
deriving DecidableEq

def Group.waiters (g : Group) : List Nat := g.pending ++ g.batch

def Group.join (g : Group) (c runner : Nat) : Group :=
  { g with flushing := true, pending := g.pending ++ [c], runner := runner }

/-- The map of `flushGroup` and the state objects, with the flusher that each was made for. The
rest is what the calls and the runners have done: what was sent to each call, where and after how
many flushes each has enqueued, the flushes begun with their flusher and runner, and how each
ended. -/
structure Book where
  states : Flusher → Option Nat
  made : Nat → Option Flusher
  groups : Nat → Group
  sent : Nat → List (Nat × Result)
  enqueued : Nat → Option (Nat × Nat)
  flushes : List (Flusher × Nat)
  ended : Nat → Option Result

inductive Call where
  | idle
  | found (f : Flusher) (st : Nat)
  | waiting (f : Flusher) (st : Nat)
  | returned (f : Flusher) (result : Nat × Result)

/-- How far a runner has come. -/
inductive Stage where
  | claimed
  | ready
  | taken (batch : List Nat)
  | flushing (batch : List Nat) (k : Nat)
  | delivering (batch : List Nat) (k : Nat) (result : Result)

def Stage.batch : Stage → List Nat
  | claimed | ready => []
  | taken batch | flushing batch _ | delivering batch _ _ => batch

inductive Runner where
  | idle
  | on (f : Flusher) (st : Nat) (stage : Stage)

structure Phase where
  call : Call
  runner : Runner

inductive Event where
  | lookup (f : Flusher)
  | enqueue
  | receive
  | spawn
  | snapshot
  | flush
  | done (result : Result)
  | deliver
  | check
  | forget (f : Flusher)

def Event.ofRunner : Event → Bool
  | spawn | snapshot | flush | done _ | deliver | check => true
  | lookup _ | enqueue | receive | forget _ => false

namespace Book

def put (b : Book) (st : Nat) (group : Group) : Book :=
  { b with groups := update b.groups st group }

def register (b : Book) (c : Nat) (f : Flusher) : Book :=
  { b with states := update b.states f (some c), made := update b.made c (some f) }

def begin (b : Book) (f : Flusher) (runner : Nat) : Book :=
  { b with flushes := b.flushes ++ [(f, runner)] }

def finish (b : Book) (k : Nat) (result : Result) : Book :=
  { b with ended := update b.ended k (some result) }

def enter (b : Book) (c st : Nat) : Book :=
  { b with enqueued := update b.enqueued c (some (st, b.flushes.length)) }

def send (b : Book) (st w : Nat) (rest : List Nat) (result : Nat × Result) : Book :=
  ({ b with sent := update b.sent w (b.sent w ++ [result]) }).put st
    { b.groups st with batch := rest }

def advance (c : Nat) : Event → Book → Phase → Option (Book × Phase)
  | .lookup f, b, ⟨.idle, .idle⟩ =>
    match b.states f with
    | some st => some (b, ⟨.found f st, .idle⟩)
    | none => some (b.register c f, ⟨.found f c, .idle⟩)
  | .enqueue, b, ⟨.found f st, .idle⟩ =>
    if (b.groups st).flushing then
      some ((b.enter c st).put st ((b.groups st).join c (b.groups st).runner),
        ⟨.waiting f st, .idle⟩)
    else
      some ((b.enter c st).put st ((b.groups st).join c c), ⟨.waiting f st, .on f st .claimed⟩)
  | .spawn, b, ⟨call, .on f st .claimed⟩ => some (b, ⟨call, .on f st .ready⟩)
  | .snapshot, b, ⟨call, .on f st .ready⟩ =>
    some (b.put st { b.groups st with pending := [], batch := (b.groups st).pending },
      ⟨call, .on f st (.taken (b.groups st).pending)⟩)
  | .flush, b, ⟨call, .on f st (.taken batch)⟩ =>
    some (b.begin f c, ⟨call, .on f st (.flushing batch b.flushes.length)⟩)
  | .done result, b, ⟨call, .on f st (.flushing batch k)⟩ =>
    some (b.finish k result, ⟨call, .on f st (.delivering batch k result)⟩)
  | .deliver, b, ⟨call, .on f st (.delivering (w :: rest) k result)⟩ =>
    some (b.send st w rest (k, result), ⟨call, .on f st (.delivering rest k result)⟩)
  | .check, b, ⟨call, .on f st (.delivering [] _ _)⟩ =>
    if (b.groups st).pending = [] then
      some (b.put st { b.groups st with flushing := false }, ⟨call, .idle⟩)
    else some (b, ⟨call, .on f st .ready⟩)
  | .receive, b, ⟨.waiting f _, runner⟩ =>
    match b.sent c with
    | [] => none
    | result :: _ => some (b, ⟨.returned f result, runner⟩)
  | .forget f, b, phase => some ({ b with states := update b.states f none }, phase)
  | _, _, _ => none

end Book

abbrev Goroutines := Threads Book Nat Phase

def program : Threads.Program Book Nat Event Phase :=
  fun c event s => s.object.advance c event (s.phase c)

def machine : Machine Goroutines (Nat × Event) := Threads.machine program

/-- No call has been made. -/
def initial : Goroutines where
  object := ⟨fun _ => none, fun _ => none, fun _ => ⟨false, [], 0, []⟩, fun _ => [], fun _ => none,
    [], fun _ => none⟩
  phase := fun _ => ⟨.idle, .idle⟩

def Book.Before (b : Book) (w st k : Nat) : Prop :=
  ∃ since, b.enqueued w = some (st, since) ∧ since ≤ k

/-- The call `w` was sent the result of one flush, of the flusher of its state object and begun
after the call had enqueued. -/
def Book.Covered (b : Book) (w : Nat) (sent : Nat × Result) : Prop :=
  ∃ st f runner, b.Before w st sent.1 ∧ b.made st = some f ∧
    b.flushes[sent.1]? = some (f, runner) ∧ b.ended sent.1 = some sent.2

/-- What holds of the waiters of a state object. -/
structure Queued (b : Book) (st : Nat) (g : Group) : Prop where
  resting : g.flushing = false → g.waiters = []
  unsent : ∀ w ∈ g.waiters, b.sent w = []
  before : ∀ w ∈ g.waiters, b.Before w st b.flushes.length
  nodup : g.waiters.Nodup

structure Good (b : Book) : Prop where
  mapped : ∀ f st, b.states f = some st → b.made st = some f
  queued : ∀ st, Queued b st (b.groups st)
  timely : ∀ k, b.flushes.length ≤ k → b.ended k = none
  covered : ∀ w, b.sent w = [] ∨ ∃ sent, b.sent w = [sent] ∧ b.Covered w sent

def OwnsCall (c : Nat) (b : Book) : Call → Prop
  | .idle => b.made c = none ∧ b.enqueued c = none
  | .found f st => b.made st = some f ∧ b.enqueued c = none
  | .waiting f st => b.made st = some f ∧ (∃ since, b.enqueued c = some (st, since)) ∧
      (b.sent c = [] → c ∈ (b.groups st).waiters)
  | .returned f result => (∃ st since, b.made st = some f ∧ b.enqueued c = some (st, since)) ∧
      b.sent c = [result]

def OwnsFlush (c : Nat) (b : Book) (f : Flusher) (st : Nat) : Stage → Prop
  | .claimed | .ready | .taken _ => True
  | .flushing batch k =>
    b.flushes[k]? = some (f, c) ∧ b.ended k = none ∧ ∀ w ∈ batch, b.Before w st k
  | .delivering batch k result =>
    b.flushes[k]? = some (f, c) ∧ b.ended k = some result ∧ ∀ w ∈ batch, b.Before w st k

def OwnsRunner (c : Nat) (b : Book) : Runner → Prop
  | .idle => True
  | .on f st stage => b.made st = some f ∧ (b.groups st).flushing = true ∧
      (b.groups st).runner = c ∧ (b.groups st).batch = stage.batch ∧ OwnsFlush c b f st stage

def Mans (c : Nat) (b : Book) (runner : Runner) : Prop :=
  ∀ st, (b.groups st).flushing = true → (b.groups st).runner = c →
    ∃ f stage, runner = .on f st stage

structure Owns (c : Nat) (b : Book) (phase : Phase) : Prop where
  call : OwnsCall c b phase.call
  runner : OwnsRunner c b phase.runner
  mans : Mans c b phase.runner

/-- What a step of `c` leaves of a state object that another call mans. -/
structure Group.Kept (c : Nat) (g g' : Group) : Prop where
  runs : g.flushing = true → g.runner ≠ c → g'.flushing = true ∧ g'.runner = g.runner ∧
    g'.batch = g.batch ∧ ∃ more, g'.pending = g.pending ++ more
  manned : g'.flushing = true → g'.runner ≠ c → g.flushing = true ∧ g.runner = g'.runner

/-- What a step of `c` leaves to the others. -/
structure Frame (c : Nat) (b b' : Book) : Prop where
  made : ∀ st f, b.made st = some f → b'.made st = some f
  unmade : ∀ other, other ≠ c → b.made other = none → b'.made other = none
  enqueued : ∀ w entry, b.enqueued w = some entry → b'.enqueued w = some entry
  outside : ∀ other, other ≠ c → b.enqueued other = none → b'.enqueued other = none
  sent : ∀ w result, b.sent w = [result] → b'.sent w = [result]
  unsent : ∀ w, b'.sent w = [] → b.sent w = []
  waiting : ∀ st w, b'.sent w = [] → w ∈ (b.groups st).waiters → w ∈ (b'.groups st).waiters
  flushes : ∀ (k : Nat) entry, b.flushes[k]? = some entry → b'.flushes[k]? = some entry
  ended : ∀ k result, b.ended k = some result → b'.ended k = some result
  unended : ∀ (k : Nat) f other, other ≠ c → b.flushes[k]? = some (f, other) → b.ended k = none →
    b'.ended k = none
  groups : ∀ st, (b.groups st).Kept c (b'.groups st)

section Frames

variable {c other st w k : Nat} {f : Flusher} {result : Result} {b b' : Book}
  {phase phase' : Phase} {event : Event} {call : Call} {stage stage' : Stage}

theorem Group.Kept.refl (c : Nat) (g : Group) : g.Kept c g :=
  ⟨fun running _ => ⟨running, rfl, rfl, [], (append_nil _).symm⟩,
    fun running _ => ⟨running, rfl⟩⟩

theorem Group.Kept.of_runner {g g' : Group} (mine : g.runner = c) (owner : g'.runner = c) :
    g.Kept c g' :=
  ⟨fun _ apart => absurd mine apart, fun _ apart => absurd owner apart⟩

theorem Frame.refl (c : Nat) (b : Book) : Frame c b b where
  made _ _ := id
  unmade _ _ := id
  enqueued _ _ := id
  outside _ _ := id
  sent _ _ := id
  unsent _ := id
  waiting _ _ _ := id
  flushes _ _ := id
  ended _ _ := id
  unended _ _ _ _ _ := id
  groups _ := .refl c _

section

variable (frame : Frame c b b')
include frame

theorem Frame.before {k' : Nat} (before : b.Before w st k) (le : k ≤ k') : b'.Before w st k' := by
  obtain ⟨since, entered, since_le⟩ := before
  exact ⟨since, frame.enqueued w _ entered, Nat.le_trans since_le le⟩

theorem Frame.covers {sent : Nat × Result} (covered : b.Covered w sent) : b'.Covered w sent := by
  obtain ⟨st, f, runner, before, made, begun, ended⟩ := covered
  exact ⟨st, f, runner, frame.before before (Nat.le_refl _), frame.made st f made,
    frame.flushes _ _ begun, frame.ended _ _ ended⟩

theorem Frame.ownsCall (unmade : b.made other = none → b'.made other = none)
    (outside : b.enqueued other = none → b'.enqueued other = none) (owns : OwnsCall other b call) :
    OwnsCall other b' call := by
  cases call with
  | idle => exact ⟨unmade owns.1, outside owns.2⟩
  | found f st => exact ⟨frame.made st f owns.1, outside owns.2⟩
  | waiting f st =>
    obtain ⟨made, ⟨since, entered⟩, queued⟩ := owns
    refine ⟨frame.made st f made, ⟨since, frame.enqueued other _ entered⟩, fun unsent => ?_⟩
    exact frame.waiting st other unsent (queued (frame.unsent other unsent))
  | returned f result =>
    obtain ⟨⟨st, since, made, entered⟩, sent⟩ := owns
    exact ⟨⟨st, since, frame.made st f made, frame.enqueued other _ entered⟩,
      frame.sent other result sent⟩

theorem Frame.ownsRunner (apart : other ≠ c) {runner : Runner} (owns : OwnsRunner other b runner) :
    OwnsRunner other b' runner := by
  cases runner with
  | idle => trivial
  | on f st stage =>
    obtain ⟨made, running, mine, batch, flush⟩ := owns
    obtain ⟨running', mine', batch', -⟩ := (frame.groups st).runs running (mine ▸ apart)
    refine ⟨frame.made st f made, running', mine'.trans mine, batch'.trans batch, ?_⟩
    cases stage with
    | claimed | ready | taken batch => trivial
    | flushing batch k =>
      exact ⟨frame.flushes k _ flush.1, frame.unended k f other apart flush.1 flush.2.1,
        fun w among => frame.before (flush.2.2 w among) (Nat.le_refl _)⟩
    | delivering batch k result =>
      exact ⟨frame.flushes k _ flush.1, frame.ended k _ flush.2.1,
        fun w among => frame.before (flush.2.2 w among) (Nat.le_refl _)⟩

end

section

variable (good : Good b)
include good

theorem Good.keep (frame : Frame c b b') (sent : b'.sent = b.sent)
    (more : b.flushes.length ≤ b'.flushes.length) :
    (∀ st, Queued b' st (b.groups st)) ∧
      ∀ w, b'.sent w = [] ∨ ∃ sent, b'.sent w = [sent] ∧ b'.Covered w sent := by
  rw [sent]
  refine ⟨fun st => ?_, fun w => ?_⟩
  · obtain ⟨resting, unsent, before, nodup⟩ := good.queued st
    exact ⟨resting, sent ▸ unsent, fun w among => frame.before (before w among) more, nodup⟩
  · exact (good.covered w).imp_right fun ⟨sent, only, covered⟩ =>
      ⟨sent, only, frame.covers covered⟩

theorem register_sound (owns : OwnsCall c b .idle) (f : Flusher) :
    Good (b.register c f) ∧ Frame c b (b.register c f) := by
  have kept : ∀ st f', b.made st = some f' → update b.made c (some f) st = some f' := by
    intro st f' made
    have apart : st ≠ c := by
      rintro rfl
      cases owns.1.symm.trans made
    rwa [update_of_ne apart]
  have frame : Frame c b (b.register c f) := { Frame.refl c b with
    made := kept
    unmade := fun other apart unmade => (update_of_ne apart _ _).trans unmade }
  obtain ⟨queued, covered⟩ := good.keep frame rfl (Nat.le_refl _)
  refine ⟨⟨fun f' st mapped => ?_, queued, good.timely, covered⟩, frame⟩
  by_cases same : f' = f
  · subst same
    obtain rfl : c = st := by simpa [Book.register] using mapped
    simp [Book.register]
  · exact kept st f' (good.mapped f' st (by simpa [Book.register, update_of_ne same] using mapped))

theorem enqueue_sound {runner : Nat} (owns : OwnsCall c b (.found f st))
    (claimed : (b.groups st).flushing = true → runner = (b.groups st).runner)
    (unclaimed : (b.groups st).flushing = false → runner = c) :
    Good ((b.enter c st).put st ((b.groups st).join c runner)) ∧
      Frame c b ((b.enter c st).put st ((b.groups st).join c runner)) := by
  have fresh : c ∉ (b.groups st).waiters := by
    intro among
    obtain ⟨since, entered, -⟩ := (good.queued st).before c among
    cases owns.2.symm.trans entered
  have unsent : b.sent c = [] := by
    rcases good.covered c with unsent | ⟨sent, -, st', -, -, ⟨since, entered, -⟩, -⟩
    · exact unsent
    · cases owns.2.symm.trans entered
  have joined : ((b.groups st).join c runner).waiters.Perm (c :: (b.groups st).waiters) := by
    simp only [Group.join, Group.waiters, append_assoc]
    exact perm_middle
  have frame : Frame c b ((b.enter c st).put st ((b.groups st).join c runner)) :=
    { Frame.refl c b with
      enqueued := fun w entry entered => by
        have apart : w ≠ c := by
          rintro rfl
          cases owns.2.symm.trans entered
        exact (update_of_ne apart _ _).trans entered
      outside := fun other apart outside => (update_of_ne apart _ _).trans outside
      waiting := (forall_update_iff b.groups fun st' g =>
        ∀ w, b.sent w = [] → w ∈ (b.groups st').waiters → w ∈ g.waiters).mpr
          ⟨fun w _ among => joined.mem_iff.mpr (mem_cons_of_mem c among), fun _ _ _ _ => id⟩
      groups := by
        refine (forall_update_iff b.groups fun st' g => (b.groups st').Kept c g).mpr
          ⟨⟨fun running _ => ⟨rfl, claimed running, rfl, [c], rfl⟩, fun _ apart => ?_⟩,
            fun _ _ => .refl c _⟩
        have flushing : (b.groups st).flushing = true := by
          by_contra resting
          exact apart (unclaimed (by simpa using resting))
        exact ⟨flushing, (claimed flushing).symm⟩ }
  obtain ⟨queued, covered⟩ := good.keep frame rfl (Nat.le_refl _)
  refine ⟨⟨good.mapped, (forall_update_iff b.groups fun st g => Queued _ st g).mpr
    ⟨⟨nofun, fun w among => ?_, fun w among => ?_, ?_⟩, fun st' _ => queued st'⟩, good.timely,
    covered⟩, frame⟩
  · rcases mem_cons.mp (joined.mem_iff.mp among) with rfl | earlier
    · exact unsent
    · exact (queued st).unsent w earlier
  · rcases mem_cons.mp (joined.mem_iff.mp among) with rfl | earlier
    · exact ⟨b.flushes.length, update_self w _ b.enqueued, Nat.le_refl _⟩
    · exact (queued st).before w earlier
  · exact joined.nodup_iff.mpr (nodup_cons.mpr ⟨fresh, (good.queued st).nodup⟩)

theorem put_sound (group : Group) (mine : (b.groups st).runner = c) (owner : group.runner = c)
    (same : group.waiters = (b.groups st).waiters)
    (resting : group.flushing = false → group.waiters = []) :
    Good (b.put st group) ∧ Frame c b (b.put st group) := by
  have frame : Frame c b (b.put st group) := { Frame.refl c b with
    waiting := (forall_update_iff b.groups fun st' g =>
      ∀ w, b.sent w = [] → w ∈ (b.groups st').waiters → w ∈ g.waiters).mpr
        ⟨fun w _ among => same ▸ among, fun _ _ _ _ => id⟩
    groups := (forall_update_iff b.groups fun st' g => (b.groups st').Kept c g).mpr
      ⟨.of_runner mine owner, fun _ _ => .refl c _⟩ }
  obtain ⟨queued, covered⟩ := good.keep frame rfl (Nat.le_refl _)
  obtain ⟨-, unsent, before, nodup⟩ := queued st
  rw [← same] at unsent before nodup
  exact ⟨⟨good.mapped, (forall_update_iff b.groups fun st g => Queued _ st g).mpr
    ⟨⟨resting, unsent, before, nodup⟩, fun st' _ => queued st'⟩, good.timely, covered⟩, frame⟩

theorem begin_sound (f : Flusher) : Good (b.begin f c) ∧ Frame c b (b.begin f c) := by
  have frame : Frame c b (b.begin f c) := { Frame.refl c b with
    flushes := fun k entry begun => by
      rw [Book.begin, List.getElem?_append_left (List.getElem?_eq_some_iff.mp begun).1, begun] }
  have more : b.flushes.length ≤ (b.begin f c).flushes.length := by simp [Book.begin]
  obtain ⟨queued, covered⟩ := good.keep frame rfl more
  exact ⟨⟨good.mapped, queued, fun k beyond => good.timely k (Nat.le_trans more beyond), covered⟩,
    frame⟩

theorem finish_sound (begun : b.flushes[k]? = some (f, c)) (unended : b.ended k = none)
    (result : Result) : Good (b.finish k result) ∧ Frame c b (b.finish k result) := by
  have frame : Frame c b (b.finish k result) := { Frame.refl c b with
    ended := fun k' result' ended => by
      have apart : k' ≠ k := by
        rintro rfl
        cases unended.symm.trans ended
      exact (update_of_ne apart _ _).trans ended
    unended := fun k' f' other apart begun' unended' => by
      have elsewhere : k' ≠ k := by
        rintro rfl
        exact apart (Prod.mk.inj (Option.some.inj (begun'.symm.trans begun))).2
      exact (update_of_ne elsewhere _ _).trans unended' }
  obtain ⟨queued, covered⟩ := good.keep frame rfl (Nat.le_refl _)
  refine ⟨⟨good.mapped, queued, fun k' beyond => ?_, covered⟩, frame⟩
  have inside : k < b.flushes.length := (List.getElem?_eq_some_iff.mp begun).1
  exact (update_of_ne (Nat.ne_of_gt (Nat.lt_of_lt_of_le inside beyond)) _ _).trans
    (good.timely k' beyond)

theorem deliver_sound {rest : List Nat}
    (owns : OwnsRunner c b (.on f st (.delivering (w :: rest) k result))) :
    Good (b.send st w rest (k, result)) ∧ Frame c b (b.send st w rest (k, result)) := by
  obtain ⟨made, running, mine, batch, begun, ended, before⟩ := owns
  let left : Group := { b.groups st with batch := rest }
  have taken : (b.groups st).waiters.Perm (w :: left.waiters) := by
    rw [Group.waiters, batch]
    exact perm_middle
  have waits : ∀ w' ∈ left.waiters, w' ∈ (b.groups st).waiters := fun w' among =>
    taken.mem_iff.mpr (mem_cons_of_mem w among)
  have unsent := (good.queued st).unsent w (taken.mem_iff.mpr (by simp))
  obtain ⟨out, distinct⟩ := nodup_cons.mp (taken.nodup_iff.mp (good.queued st).nodup)
  have sent : (b.send st w rest (k, result)).sent = update b.sent w [(k, result)] := by
    change update b.sent w (b.sent w ++ [(k, result)]) = _
    rw [unsent, nil_append]
  have elsewhere : ∀ w', w' ≠ w → (b.send st w rest (k, result)).sent w' = b.sent w' :=
    fun w' apart => by rw [sent, update_of_ne apart]
  have answered : ∀ w', (b.send st w rest (k, result)).sent w' = [] → w' ≠ w := by
    rintro w' empty rfl
    rw [sent, update_self] at empty
    cases empty
  have frame : Frame c b (b.send st w rest (k, result)) := { Frame.refl c b with
    sent := fun w' result' only => by
      have apart : w' ≠ w := by
        rintro rfl
        cases unsent.symm.trans only
      rwa [elsewhere w' apart]
    unsent := fun w' empty => by rwa [elsewhere w' (answered w' empty)] at empty
    waiting := (forall_update_iff b.groups fun st' g => ∀ w',
      (b.send st w rest (k, result)).sent w' = [] → w' ∈ (b.groups st').waiters →
        w' ∈ g.waiters).mpr ⟨fun w' empty among =>
          mem_of_ne_of_mem (answered w' empty) (taken.mem_iff.mp among), fun _ _ _ _ => id⟩
    groups := (forall_update_iff b.groups fun st' g => (b.groups st').Kept c g).mpr
      ⟨.of_runner mine mine, fun _ _ => .refl c _⟩ }
  refine ⟨⟨good.mapped, (forall_update_iff b.groups fun st g => Queued _ st g).mpr
    ⟨⟨fun idle => ?_, fun w' among => ?_, fun w' among => ?_, distinct⟩, fun st' apart => ?_⟩,
    good.timely, fun w' => ?_⟩, frame⟩
  · cases idle.symm.trans running
  · rw [elsewhere w' fun same => out (same ▸ among)]
    exact (good.queued st).unsent w' (waits w' among)
  · exact (good.queued st).before w' (waits w' among)
  · -- a call waits at one state object
    obtain ⟨resting, unsent, queued, nodup⟩ := good.queued st'
    refine ⟨resting, fun w' among => ?_, queued, nodup⟩
    refine (elsewhere w' ?_).trans (unsent w' among)
    rintro rfl
    obtain ⟨since, entered, -⟩ := queued w' among
    obtain ⟨since', entered', -⟩ := before w' (by simp)
    exact apart (Prod.mk.inj (Option.some.inj (entered.symm.trans entered'))).1
  · by_cases same : w' = w
    · subst same
      exact .inr ⟨(k, result), by simp [sent], st, f, c, before w' (by simp), made, begun, ended⟩
    · rw [elsewhere w' same]
      exact (good.covered w').imp_right fun ⟨sent', only, covered⟩ =>
        ⟨sent', only, frame.covers covered⟩

end

theorem mans_put {group : Group} {runner : Runner}
    (here : group.flushing = true → group.runner = c → ∃ f stage, runner = .on f st stage)
    (others : ∀ st', st' ≠ st → (b.groups st').flushing = true → (b.groups st').runner = c →
      ∃ f stage, runner = .on f st' stage) : Mans c (b.put st group) runner :=
  (forall_update_iff b.groups fun st g => g.flushing = true → g.runner = c →
    ∃ f stage, runner = .on f st stage).mpr ⟨here, others⟩

theorem Mans.elsewhere (mans : Mans c b (.on f st stage)) {runner : Runner} (st' : Nat)
    (apart : st' ≠ st) (running : (b.groups st').flushing = true)
    (mine : (b.groups st').runner = c) : ∃ f stage, runner = .on f st' stage := by
  obtain ⟨f', stage', same⟩ := mans st' running mine
  cases same
  exact absurd rfl apart

theorem Mans.stays (mans : Mans c b (.on f st stage)) (stage' : Stage) :
    Mans c b (.on f st stage') := by
  intro st' running mine
  by_cases here : st' = st
  · exact ⟨f, stage', by rw [here]⟩
  · exact mans.elsewhere st' here running mine

theorem Frame.owns (frame : Frame c b b') (apart : other ≠ c) (owns : Owns other b phase) :
    Owns other b' phase where
  call := frame.ownsCall (frame.unmade other apart) (frame.outside other apart) owns.call
  runner := frame.ownsRunner apart owns.runner
  mans st running mine := by
    obtain ⟨running', mine'⟩ := (frame.groups st).manned running (mine ▸ apart)
    exact owns.mans st running' (mine'.trans mine)

theorem step_sound (good : Good b) (owns : Owns c b phase)
    (moved : b.advance c event phase = some (b', phase')) :
    Good b' ∧ Owns c b' phase' ∧ Frame c b b' := by
  unfold Book.advance at moved
  split at moved
  case h_1 f =>
    split at moved
    case h_1 st found =>
      cases moved
      exact ⟨good, ⟨⟨good.mapped f st found, owns.call.2⟩, trivial, owns.mans⟩, .refl c b⟩
    case h_2 =>
      cases moved
      obtain ⟨good', frame⟩ := register_sound good owns.call f
      have made : (b.register c f).made c = some f := update_self c _ b.made
      exact ⟨good', ⟨⟨made, owns.call.2⟩, trivial, owns.mans⟩, frame⟩
  case h_2 f st =>
    have entered : ∀ runner, OwnsCall c ((b.enter c st).put st ((b.groups st).join c runner))
        (.waiting f st) := fun runner =>
      ⟨owns.call.1, ⟨b.flushes.length, update_self c _ b.enqueued⟩, fun _ => by
        simp [Book.put, Group.join, Group.waiters]⟩
    split at moved
    case isTrue running =>
      cases moved
      obtain ⟨good', frame⟩ := enqueue_sound good owns.call (fun _ => rfl)
        fun resting => by cases resting.symm.trans running
      exact ⟨good', ⟨entered _, trivial, mans_put (fun _ => owns.mans st running)
        fun st' _ => owns.mans st'⟩, frame⟩
    case isFalse resting =>
      cases moved
      have empty := (good.queued st).resting (by simpa using resting)
      obtain ⟨good', frame⟩ := enqueue_sound good owns.call
        (fun running => absurd running resting) fun _ => rfl
      refine ⟨good', ⟨entered c, ⟨owns.call.1, by simp [Book.put, Group.join],
        by simp [Book.put, Group.join], ?_, trivial⟩, mans_put (fun _ _ => ⟨f, .claimed, rfl⟩)
        fun st' _ running mine => ?_⟩, frame⟩
      · simpa [Book.put, Group.join, Stage.batch] using (append_eq_nil_iff.mp empty).2
      · obtain ⟨f', stage, same⟩ := owns.mans st' running mine
        cases same
  case h_3 call f st =>
    cases moved
    exact ⟨good, ⟨owns.call, owns.runner, owns.mans.stays _⟩, .refl c b⟩
  case h_4 call f st =>
    cases moved
    obtain ⟨made, running, mine, batch, -⟩ := owns.runner
    obtain ⟨good', frame⟩ := put_sound good
      { b.groups st with pending := [], batch := (b.groups st).pending } mine mine
      (by simp [Group.waiters, batch, Stage.batch]) fun idle => by cases idle.symm.trans running
    exact ⟨good', ⟨frame.ownsCall id id owns.call, ⟨made, by simpa [Book.put] using running,
      by simpa [Book.put] using mine, by simp [Book.put, Stage.batch], trivial⟩,
      mans_put (fun _ _ => ⟨f, _, rfl⟩) owns.mans.elsewhere⟩, frame⟩
  case h_5 call f st batch =>
    cases moved
    obtain ⟨made, running, mine, taken, -⟩ := owns.runner
    obtain ⟨good', frame⟩ := begin_sound (c := c) good f
    refine ⟨good', ⟨frame.ownsCall id id owns.call, ⟨made, running, mine, taken,
      by simp [Book.begin], good.timely _ (Nat.le_refl _), fun w among => ?_⟩,
      owns.mans.stays _⟩, frame⟩
    exact (good.queued st).before w (mem_append_right _ (taken ▸ among))
  case h_6 result call f st batch k =>
    cases moved
    obtain ⟨made, running, mine, taken, begun, unended, before⟩ := owns.runner
    obtain ⟨good', frame⟩ := finish_sound good begun unended result
    exact ⟨good', ⟨frame.ownsCall id id owns.call, ⟨made, running, mine, taken, begun,
      update_self k _ b.ended, before⟩, owns.mans.stays _⟩, frame⟩
  case h_7 call f st w rest k result =>
    cases moved
    obtain ⟨good', frame⟩ := deliver_sound good owns.runner
    obtain ⟨made, running, mine, -, begun, ended, before⟩ := owns.runner
    exact ⟨good', ⟨frame.ownsCall id id owns.call, ⟨made,
      by simpa [Book.send, Book.put] using running, by simpa [Book.send, Book.put] using mine,
      by simp [Book.send, Book.put, Stage.batch], begun, ended,
      fun w among => before w (mem_cons_of_mem _ among)⟩,
      mans_put (fun _ _ => ⟨f, _, rfl⟩) owns.mans.elsewhere⟩, frame⟩
  case h_8 call f st k result =>
    obtain ⟨made, running, mine, taken, -⟩ := owns.runner
    split at moved
    case isTrue empty =>
      cases moved
      have none_left : (b.groups st).waiters = [] := by
        simp [Group.waiters, empty, taken, Stage.batch]
      obtain ⟨good', frame⟩ :=
        put_sound good { b.groups st with flushing := false } mine mine rfl fun _ => none_left
      exact ⟨good', ⟨frame.ownsCall id id owns.call, trivial, mans_put nofun owns.mans.elsewhere⟩,
        frame⟩
    case isFalse =>
      cases moved
      exact ⟨good, ⟨owns.call, ⟨made, running, mine, taken, trivial⟩, owns.mans.stays _⟩, .refl c b⟩
  case h_9 f st runner =>
    split at moved
    · cases moved
    case h_2 result rest received =>
      cases moved
      obtain ⟨made, ⟨since, entered⟩, -⟩ := owns.call
      refine ⟨good, ⟨⟨⟨st, since, made, entered⟩, ?_⟩, owns.runner, owns.mans⟩, .refl c b⟩
      rcases good.covered c with unsent | ⟨sent, only, -⟩
      · cases unsent.symm.trans received
      · obtain ⟨rfl, -⟩ := List.cons.inj (only.symm.trans received)
        exact only
  case h_10 f =>
    cases moved
    have frame : Frame c b { b with states := update b.states f none } := { Frame.refl c b with }
    obtain ⟨queued, covered⟩ := good.keep frame rfl (Nat.le_refl _)
    refine ⟨⟨fun f' st mapped => ?_, queued, good.timely, covered⟩,
      ⟨by cases phase; exact owns.call, owns.runner, owns.mans⟩, frame⟩
    by_cases same : f' = f
    · subst same
      simp at mapped
    · exact good.mapped f' st (by simpa [update_of_ne same] using mapped)
  case h_11 => cases moved

def Stage.steps (c : Nat) (pending : List Nat) : Stage → Nat
  | claimed => pending.idxOf c + 5
  | ready => pending.idxOf c + 4
  | taken batch => if c ∈ batch then batch.idxOf c + 3 else batch.length + pending.idxOf c + 7
  | flushing batch _ =>
    if c ∈ batch then batch.idxOf c + 2 else batch.length + pending.idxOf c + 6
  | delivering batch _ _ =>
    if c ∈ batch then batch.idxOf c + 1 else batch.length + pending.idxOf c + 5

theorem Stage.steps_pos (stage : Stage) (c : Nat) (pending : List Nat) :
    0 < stage.steps c pending := by
  cases stage with
  | claimed | ready => exact Nat.succ_pos _
  | taken batch | flushing batch k | delivering batch k result =>
    simp only [Stage.steps]
    split <;> exact Nat.succ_pos _

theorem steps_append {pending : List Nat} (more : List Nat) (waits : c ∈ pending ++ stage.batch) :
    stage.steps c (pending ++ more) = stage.steps c pending := by
  have same : c ∉ stage.batch → (pending ++ more).idxOf c = pending.idxOf c := fun out =>
    idxOf_append_of_mem ((mem_append.mp waits).resolve_right out)
  cases stage with
  | claimed | ready => simp only [Stage.steps, same (by simp [Stage.batch])]
  | taken batch | flushing batch k | delivering batch k result =>
    simp only [Stage.steps]
    split
    · rfl
    case isFalse out => rw [same out]

theorem runner_step (batch : (b.groups st).batch = stage.batch) (waits : w ∈ (b.groups st).waiters)
    (own : event.ofRunner = true)
    (moved : b.advance c event ⟨call, .on f st stage⟩ = some (b', phase')) :
    b'.sent w ≠ [] ∨ ∃ stage', phase'.runner = .on f st stage' ∧
      stage'.steps w (b'.groups st).pending < stage.steps w (b.groups st).pending := by
  rw [Group.waiters, batch] at waits
  cases event with
  | lookup f' | enqueue | receive | forget f' => cases own
  | spawn =>
    cases stage <;> cases moved
    exact .inr ⟨.ready, rfl, Nat.lt_succ_self _⟩
  | snapshot =>
    cases stage <;> cases moved
    have pending : w ∈ (b.groups st).pending := by simpa [Stage.batch] using waits
    exact .inr ⟨_, rfl, by simp [Stage.steps, pending]⟩
  | flush =>
    cases stage <;> cases moved
    refine .inr ⟨_, rfl, ?_⟩
    simp only [Stage.steps, Book.begin]
    split <;> omega
  | done result =>
    cases stage <;> cases moved
    refine .inr ⟨_, rfl, ?_⟩
    simp only [Stage.steps, Book.finish]
    split <;> omega
  | deliver =>
    cases stage with
    | claimed | ready | taken _ | flushing _ _ => cases moved
    | delivering taken k result =>
      cases taken with
      | nil => cases moved
      | cons head rest =>
        cases moved
        by_cases first : w = head
        · subst first
          exact .inl (by simp [Book.send, Book.put])
        · refine .inr ⟨_, rfl, ?_⟩
          simp only [Stage.steps, Book.send, Book.put, update_self, mem_cons, first, false_or,
            length_cons]
          rw [idxOf_cons_ne _ (Ne.symm first)]
          split <;> omega
  | check =>
    cases stage with
    | claimed | ready | taken _ | flushing _ _ => cases moved
    | delivering taken k result =>
      cases taken with
      | cons head rest => cases moved
      | nil =>
        have pending : w ∈ (b.groups st).pending := by simpa [Stage.batch] using waits
        simp only [Book.advance, if_neg (ne_nil_of_mem pending)] at moved
        cases moved
        exact .inr ⟨.ready, rfl, by simp [Stage.steps]⟩

theorem call_step (own : event.ofRunner = false)
    (moved : b.advance c event ⟨call, .on f st stage⟩ = some (b', phase')) :
    phase'.runner = .on f st stage ∧ b'.groups = b.groups := by
  cases event with
  | spawn | snapshot | flush | done result | deliver | check => cases own
  | lookup f' | enqueue => cases call <;> cases moved
  | receive =>
    cases call with
    | idle | found _ _ | returned _ _ => cases moved
    | waiting f' st' =>
      rw [Book.advance] at moved
      split at moved
      · cases moved
      · cases moved
        exact ⟨rfl, rfl⟩
  | forget f' =>
    cases call <;> cases moved <;> exact ⟨rfl, rfl⟩

end Frames

section Runs

variable {s s' : Goroutines}

/-- The invariant of a state. -/
structure Sound (s : Goroutines) : Prop where
  good : Good s.object
  owns : ∀ c, Owns c s.object (s.phase c)

theorem Sound.step (sound : Sound s) {action : Nat × Event}
    (stepped : machine.step action s = some s') : Sound s' ∧ Frame action.1 s.object s'.object := by
  obtain ⟨c, event⟩ := action
  obtain ⟨object, phase, moved, rfl⟩ := Threads.of_step stepped
  obtain ⟨good, mine, frame⟩ := step_sound sound.good (sound.owns c) moved
  refine ⟨⟨good, fun other => ?_⟩, frame⟩
  by_cases same : other = c
  · subst same
    simpa using mine
  · simpa [update_of_ne same] using frame.owns same (sound.owns other)

theorem sound_of_reaches (reached : machine.Reaches anyAction initial s) : Sound s := by
  refine reached.invariant ⟨⟨nofun, fun _ => ⟨fun _ => rfl, nofun, nofun, nodup_nil⟩,
    fun _ _ => rfl, fun _ => .inl rfl⟩, fun c => ⟨⟨rfl, rfl⟩, trivial, nofun⟩⟩ ?_
  exact fun sound _ stepped => (sound.step stepped).1

def Awaits (s : Goroutines) (w st runner n : Nat) : Prop :=
  ∃ f stage, (s.phase runner).runner = .on f st stage ∧ w ∈ (s.object.groups st).waiters ∧
    stage.steps w (s.object.groups st).pending ≤ n

def stepOf (runner : Nat) (action : Nat × Event) : Bool :=
  action.1 = runner && action.2.ofRunner

theorem Awaits.step (sound : Sound s) {w st runner n : Nat} (awaits : Awaits s w st runner n)
    {action : Nat × Event} (stepped : machine.step action s = some s') :
    s'.object.sent w ≠ [] ∨
      ∃ n', Awaits s' w st runner n' ∧ n' + (if stepOf runner action then 1 else 0) ≤ n := by
  obtain ⟨f, stage, on, waits, bound⟩ := awaits
  obtain ⟨sound', frame⟩ := sound.step stepped
  obtain ⟨-, running, mine, batch, -⟩ : OwnsRunner runner s.object (.on f st stage) :=
    on ▸ (sound.owns runner).runner
  by_cases answered : s'.object.sent w = []
  case neg => exact .inl answered
  have waits' := frame.waiting st w answered waits
  obtain ⟨c, event⟩ := action
  obtain ⟨object, phase, moved, rfl⟩ := Threads.of_step stepped
  by_cases own : stepOf runner (c, event) = true
  · obtain ⟨rfl, ofRunner⟩ : c = runner ∧ event.ofRunner = true := by simpa [stepOf] using own
    have phases : s.phase c = ⟨(s.phase c).call, .on f st stage⟩ := by rw [← on]
    rw [program, phases] at moved
    rcases runner_step batch waits ofRunner moved with sent | ⟨stage', on', closer⟩
    · exact absurd answered sent
    · refine .inr ⟨_, ⟨f, stage', by simpa using on', waits', Nat.le_refl _⟩, ?_⟩
      rw [if_pos own]
      exact Nat.le_trans closer bound
  · have kept : (update s.phase c phase runner).runner = .on f st stage ∧
        ∃ more, (object.groups st).pending = (s.object.groups st).pending ++ more := by
      by_cases same : c = runner
      · subst same
        have phases : s.phase c = ⟨(s.phase c).call, .on f st stage⟩ := by rw [← on]
        rw [program, phases] at moved
        obtain ⟨on', groups⟩ := call_step (by simpa [stepOf] using own) moved
        exact ⟨by simpa using on', [], by rw [groups, append_nil]⟩
      · obtain ⟨-, -, -, more⟩ := (frame.groups st).runs running (mine ▸ Ne.symm same)
        exact ⟨by rw [update_of_ne (Ne.symm same), on], more⟩
    obtain ⟨on', more, pending⟩ := kept
    refine .inr ⟨n, ⟨f, stage, on', waits', ?_⟩, by rw [if_neg own]; exact Nat.le_refl n⟩
    rw [pending, steps_append more (batch ▸ waits)]
    exact bound

theorem Awaits.answered {w st runner n : Nat} {actions : List (Nat × Event)}
    (sound : Sound s) (awaits : s.object.sent w ≠ [] ∨ Awaits s w st runner n)
    (ran : machine.run anyAction actions s = some s')
    (enough : n ≤ actions.countP (stepOf runner)) : s'.object.sent w ≠ [] := by
  induction actions generalizing s n with
  | nil =>
    cases ran
    rcases awaits with answered | ⟨f, stage, -, -, bound⟩
    · exact answered
    · have positive := Nat.lt_of_lt_of_le (stage.steps_pos w _) bound
      rw [countP_nil] at enough
      omega
  | cons action rest ih =>
    obtain ⟨mid, -, stepped, continued⟩ := Machine.of_run_cons ran
    obtain ⟨sound', frame⟩ := sound.step stepped
    rw [countP_cons] at enough
    rcases awaits with answered | awaits
    · refine ih sound' (.inl ?_) continued (Nat.zero_le _)
      exact fun unsent => answered (frame.unsent w unsent)
    · rcases awaits.step sound stepped with answered | ⟨n', awaits', le⟩
      · exact ih sound' (.inl answered) continued (Nat.zero_le _)
      · exact ih sound' (.inr awaits') continued (by omega)

/-- The steps of a runner whose `Flush`, if it is in one, returns `result`. -/
def runnerEvents (result : Result) : List Event :=
  [.spawn, .snapshot, .flush, .done result, .deliver, .check]

theorem exists_runner_step {r st : Nat} {f : Flusher} {stage : Stage}
    (on : (s.phase r).runner = .on f st stage) (result : Result) :
    ∃ event ∈ runnerEvents result, (machine.step (r, event) s).isSome := by
  have phases : s.phase r = ⟨(s.phase r).call, .on f st stage⟩ := by rw [← on]
  have enabled : ∃ event ∈ runnerEvents result, (s.object.advance r event (s.phase r)).isSome := by
    rw [phases]
    rcases stage with - | - | - | - | ⟨- | -, -, -⟩
    · exact ⟨.spawn, by simp [runnerEvents], rfl⟩
    · exact ⟨.snapshot, by simp [runnerEvents], rfl⟩
    · exact ⟨.flush, by simp [runnerEvents], rfl⟩
    · exact ⟨.done result, by simp [runnerEvents], rfl⟩
    · exact ⟨.check, by simp [runnerEvents], by simp only [Book.advance]; split <;> rfl⟩
    · exact ⟨.deliver, by simp [runnerEvents], rfl⟩
  simpa [machine, Threads.machine, Threads.step, program] using enabled

theorem receive_isSome {c st : Nat} {f : Flusher} (waiting : (s.phase c).call = .waiting f st)
    (sent : s.object.sent c ≠ []) : (machine.step (c, .receive) s).isSome := by
  have phases : s.phase c = ⟨.waiting f st, (s.phase c).runner⟩ := by rw [← waiting]
  obtain ⟨result, rest, first⟩ := exists_cons_of_ne_nil sent
  have enabled : (s.object.advance c .receive (s.phase c)).isSome := by
    rw [phases]
    simp [Book.advance, first]
  simpa [machine, Threads.machine, Threads.step, program] using enabled

def Call.flusher? : Call → Option Flusher
  | idle => none
  | found f _ | waiting f _ | returned f _ => some f

end Runs

/-- Two calls of one flusher: the second enqueues while the first flush is under way, which fails,
and the entry of the flusher is dropped meanwhile. -/
def overlapping : List (Nat × Event) :=
  [(0, .lookup 5), (0, .enqueue), (1, .lookup 5), (0, .spawn), (0, .snapshot), (0, .flush),
    (1, .enqueue), (2, .forget 5), (0, .done (some "fenced")), (0, .deliver), (0, .check),
    (0, .snapshot), (0, .flush), (0, .done none), (0, .deliver), (1, .receive)]

end Shale.FlushGroup
