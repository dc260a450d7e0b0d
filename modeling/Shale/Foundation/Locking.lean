import Mathlib.Order.WellFounded
import Shale.Foundation.Machine

/-!
# Threads that take reader-writer locks

Threads run a control-flow graph whose instructions take and release locks. A lock is
Go's `sync.RWMutex`: a reader enters unless a writer has announced itself, and parks
otherwise; a writer queues until no other writer is there, announces itself, and then waits
for the readers inside; its unlock lets every parked reader in. A `sync.Mutex` is a lock
that is only ever taken for writing.

`Waits` is the wait-for relation between threads, and a state is a deadlock if some non-empty set
of threads each waits for a member.
-/

namespace Shale.Locking

inductive Mode where
  | read
  | write
deriving DecidableEq

/-- What a thread does at a point of the control-flow graph: take a lock, give one back, or
go on at one of several points. -/
inductive Instr (Lock Pc : Type) where
  | acquire (lock : Lock) (mode : Mode) (next : Pc)
  | release (lock : Lock) (mode : Mode) (next : Pc)
  | branch (next : List Pc)

/-- A control-flow graph with the points at which a thread may start. -/
structure Program (Lock Pc : Type) where
  entry : Pc → Bool
  code : Pc → Instr Lock Pc

/-- How far a thread has come with the lock it takes: it has not asked, it waits behind
another writer, it is the writer that waits for the readers inside, or it is a reader that
waits for the writer. -/
inductive Status where
  | ready
  | queued
  | announced
  | parked
deriving DecidableEq

structure Thread (Lock Pc : Type) where
  pc : Pc
  held : List (Lock × Mode)
  status : Status
deriving DecidableEq

abbrev State (Lock Pc : Type) := List (Thread Lock Pc)

variable {Lock Pc : Type} [DecidableEq Lock] (P : Program Lock Pc)

namespace Thread

variable (t : Thread Lock Pc) (lock : Lock)

def wants : Option (Lock × Mode) :=
  match P.code t.pc with
  | .acquire lock mode _ => some (lock, mode)
  | _ => none

def Writes : Prop :=
  (lock, .write) ∈ t.held ∨ t.status = .announced ∧ t.wants P = some (lock, .write)

def Reads : Prop := (lock, .read) ∈ t.held

instance : Decidable (t.Writes P lock) := inferInstanceAs (Decidable (_ ∨ _))

instance : Decidable (t.Reads lock) := inferInstanceAs (Decidable (_ ∈ _))

def take : Thread Lock Pc :=
  match P.code t.pc with
  | .acquire lock mode next => ⟨next, (lock, mode) :: t.held, .ready⟩
  | _ => t

def admitReader : Thread Lock Pc :=
  if t.status = .parked ∧ t.wants P = some (lock, .read) then t.take P else t

end Thread

inductive Action (Pc : Type) where
  | spawn (pc : Pc)
  | request (i : Nat)
  | announce (i : Nat)
  | enter (i : Nat)
  | release (i : Nat)
  | branch (i : Nat) (next : Pc)

def request (s : State Lock Pc) (i : Nat) (t : Thread Lock Pc) : Option (State Lock Pc) :=
  match t.status, t.wants P with
  | .ready, some (lock, .read) =>
    if ∃ w ∈ s, w.Writes P lock then some (s.set i { t with status := .parked })
    else some (s.set i (t.take P))
  | .ready, some (_, .write) => some (s.set i { t with status := .queued })
  | _, _ => none

def announce (s : State Lock Pc) (i : Nat) (t : Thread Lock Pc) : Option (State Lock Pc) :=
  match t.status, t.wants P with
  | .queued, some (lock, _) =>
    if ∃ w ∈ s, w.Writes P lock then none else some (s.set i { t with status := .announced })
  | _, _ => none

def enter (s : State Lock Pc) (i : Nat) (t : Thread Lock Pc) : Option (State Lock Pc) :=
  match t.status, t.wants P with
  | .announced, some (lock, _) =>
    if ∃ w ∈ s, w.Reads lock then none else some (s.set i (t.take P))
  | _, _ => none

/-- `RUnlock` or `Unlock` is called. -/
def release (s : State Lock Pc) (i : Nat) (t : Thread Lock Pc) : Option (State Lock Pc) :=
  match P.code t.pc with
  | .release lock .read next => some (s.set i ⟨next, t.held.erase (lock, .read), .ready⟩)
  | .release lock .write next =>
    some ((s.set i ⟨next, t.held.erase (lock, .write), .ready⟩).map fun u => u.admitReader P lock)
  | _ => none

def branch [DecidableEq Pc] (s : State Lock Pc) (i : Nat) (next : Pc) (t : Thread Lock Pc) :
    Option (State Lock Pc) :=
  match P.code t.pc with
  | .branch choices => if next ∈ choices then some (s.set i ⟨next, t.held, .ready⟩) else none
  | _ => none

def step [DecidableEq Pc] (action : Action Pc) (s : State Lock Pc) : Option (State Lock Pc) :=
  match action with
  | .spawn pc => if P.entry pc then some (s ++ [⟨pc, [], .ready⟩]) else none
  | .request i => s[i]?.bind (request P s i)
  | .announce i => s[i]?.bind (announce P s i)
  | .enter i => s[i]?.bind (enter P s i)
  | .release i => s[i]?.bind (release P s i)
  | .branch i next => s[i]?.bind (branch P s i next)

def machine [DecidableEq Pc] : Machine (State Lock Pc) (Action Pc) := ⟨step P⟩

@[simp] theorem machine_step [DecidableEq Pc] : (machine P).step = step P := rfl

def Thread.WaitsFor (t u : Thread Lock Pc) : Prop :=
  ∃ lock mode, t.wants P = some (lock, mode) ∧
    (t.status = .announced ∧ u.Reads lock ∨
      (t.status = .queued ∨ t.status = .parked) ∧ u.Writes P lock)

variable {action : Action Pc} {s s' : State Lock Pc} {kind : Pc → Bool} {t : Thread Lock Pc}
  {lock : Lock} {i : Nat}

omit [DecidableEq Lock] in
theorem Thread.WaitsFor.status_ne {P : Program Lock Pc} {u : Thread Lock Pc}
    (waits : t.WaitsFor P u) : t.status ≠ .ready := by
  obtain ⟨_, _, _, ⟨status, _⟩ | ⟨status | status, _⟩⟩ := waits <;> simp [status]

def Waits (s : State Lock Pc) (i j : Nat) : Prop :=
  ∃ t u, s[i]? = some t ∧ s[j]? = some u ∧ t.WaitsFor P u

def Deadlock (s : State Lock Pc) : Prop :=
  ∃ S : Set Nat, S.Nonempty ∧ ∀ i ∈ S, ∃ j ∈ S, Waits P s i j

omit [DecidableEq Lock] in
/-- **The rank rule.** If the waiting threads that a thread waits for rank below it, there is
no deadlock. -/
theorem not_deadlock_of_rank (rank : Thread Lock Pc → Nat)
    (falls : ∀ t ∈ s, ∀ u ∈ s, ∀ v ∈ s, t.WaitsFor P u → u.WaitsFor P v → rank u < rank t) :
    ¬ Deadlock P s := by
  rintro ⟨S, ⟨i, mem⟩, closed⟩
  obtain ⟨_, -, t, _, here, -, -⟩ := closed i mem
  -- a member of the lowest rank waits for a member of a lower one
  obtain ⟨_, ⟨i, mem, t, here, rfl⟩, lowest⟩ := WellFounded.has_min wellFounded_lt
    {r : Nat | ∃ i ∈ S, ∃ t, s[i]? = some t ∧ rank t = r} ⟨rank t, i, mem, t, here, rfl⟩
  obtain ⟨j, other, t', u, here', there, waits⟩ := closed i mem
  cases here.symm.trans here'
  obtain ⟨k, -, u', v, there', beyond, blocked⟩ := closed j other
  cases there.symm.trans there'
  exact lowest (rank u) ⟨j, other, u, there, rfl⟩
    (falls t (List.mem_of_getElem? here) u (List.mem_of_getElem? there) v
      (List.mem_of_getElem? beyond) waits blocked)

inductive Effect (s : State Lock Pc) : Action Pc → State Lock Pc → Prop where
  | spawn {pc : Pc} (starts : P.entry pc = true) :
      Effect s (.spawn pc) (s ++ [⟨pc, [], .ready⟩])
  | park {i : Nat} {t : Thread Lock Pc} {lock : Lock} (here : s[i]? = some t)
      (wants : t.wants P = some (lock, .read)) (writer : ∃ w ∈ s, w.Writes P lock) :
      Effect s (.request i) (s.set i { t with status := .parked })
  | queue {i : Nat} {t : Thread Lock Pc} {lock : Lock} (here : s[i]? = some t)
      (wants : t.wants P = some (lock, .write)) :
      Effect s (.request i) (s.set i { t with status := .queued })
  | announce {i : Nat} {t : Thread Lock Pc} (here : s[i]? = some t) (queued : t.status = .queued) :
      Effect s (.announce i) (s.set i { t with status := .announced })
  | take {action : Action Pc} {i : Nat} {t : Thread Lock Pc} {lock : Lock} {mode : Mode} {next : Pc}
      (here : s[i]? = some t) (at_ : P.code t.pc = .acquire lock mode next) :
      Effect s action (s.set i ⟨next, (lock, mode) :: t.held, .ready⟩)
  | runlock {i : Nat} {t : Thread Lock Pc} {lock : Lock} {next : Pc} (here : s[i]? = some t)
      (at_ : P.code t.pc = .release lock .read next) :
      Effect s (.release i) (s.set i ⟨next, t.held.erase (lock, .read), .ready⟩)
  | unlock {i : Nat} {t : Thread Lock Pc} {lock : Lock} {next : Pc} (here : s[i]? = some t)
      (at_ : P.code t.pc = .release lock .write next) :
      Effect s (.release i)
        ((s.set i ⟨next, t.held.erase (lock, .write), .ready⟩).map fun u => u.admitReader P lock)
  | branch {i : Nat} {t : Thread Lock Pc} {choices : List Pc} {next : Pc} (here : s[i]? = some t)
      (at_ : P.code t.pc = .branch choices) (chosen : next ∈ choices) :
      Effect s (.branch i next) (s.set i ⟨next, t.held, .ready⟩)

variable {P}

theorem Effect.of_take {mode : Mode} (here : s[i]? = some t) (wants : t.wants P = some (lock, mode))
    : Effect P s action (s.set i (t.take P)) := by
  unfold Thread.wants at wants
  unfold Thread.take
  split at wants
  case h_1 at_ => exact .take here at_
  case h_2 => cases wants

theorem effect_of_step [DecidableEq Pc] (stepped : step P action s = some s') :
    Effect P s action s' := by
  cases action with
  | spawn pc =>
    obtain ⟨starts, rfl⟩ := Machine.of_guard stepped
    exact .spawn starts
  | request i =>
    obtain ⟨t, here, asked⟩ := Option.bind_eq_some_iff.mp stepped
    unfold request at asked
    split at asked
    case h_1 lock _ wants =>
      split at asked
      case isTrue writer =>
        cases asked
        exact .park here wants writer
      case isFalse =>
        cases asked
        exact .of_take here wants
    case h_2 wants =>
      cases asked
      exact .queue here wants
    case h_3 => cases asked
  | announce i =>
    obtain ⟨t, here, asked⟩ := Option.bind_eq_some_iff.mp stepped
    unfold announce at asked
    split at asked
    case h_1 queued _ =>
      split at asked
      · cases asked
      · cases asked
        exact .announce here queued
    case h_2 => cases asked
  | enter i =>
    obtain ⟨t, here, asked⟩ := Option.bind_eq_some_iff.mp stepped
    unfold enter at asked
    split at asked
    case h_1 wants =>
      split at asked
      · cases asked
      · cases asked
        exact .of_take here wants
    case h_2 => cases asked
  | release i =>
    obtain ⟨t, here, asked⟩ := Option.bind_eq_some_iff.mp stepped
    unfold release at asked
    split at asked
    case h_1 at_ =>
      cases asked
      exact .runlock here at_
    case h_2 at_ =>
      cases asked
      exact .unlock here at_
    case h_3 => cases asked
  | branch i next =>
    obtain ⟨t, here, asked⟩ := Option.bind_eq_some_iff.mp stepped
    unfold branch at asked
    split at asked
    case h_1 at_ =>
      obtain ⟨chosen, rfl⟩ := Machine.of_guard asked
      exact .branch here at_ chosen
    case h_2 => cases asked

/-- An assignment of the locks held to the points of the graph that agrees with its
instructions. -/
structure Annotation (P : Program Lock Pc) (locks : Pc → List (Lock × Mode)) : Prop where
  entry : ∀ pc, P.entry pc = true → locks pc = []
  acquire : ∀ pc lock mode next, P.code pc = .acquire lock mode next →
    locks next = (lock, mode) :: locks pc
  release : ∀ pc lock mode next, P.code pc = .release lock mode next →
    locks next = (locks pc).erase (lock, mode)
  branch : ∀ pc choices, P.code pc = .branch choices → ∀ next ∈ choices, locks next = locks pc

variable {locks : Pc → List (Lock × Mode)}

def Annotated (locks : Pc → List (Lock × Mode)) (s : State Lock Pc) : Prop :=
  ∀ t ∈ s, t.held = locks t.pc

omit [DecidableEq Lock] in
theorem Annotated.set (holds : Annotated locks s) (i : Nat) (held : t.held = locks t.pc) :
    Annotated locks (s.set i t) := by
  intro u mem
  rcases List.mem_or_eq_of_mem_set mem with old | rfl
  · exact holds u old
  · exact held

theorem Annotation.admitReader (ann : Annotation P locks) (held : t.held = locks t.pc) (lock : Lock)
    : (t.admitReader P lock).held = locks (t.admitReader P lock).pc := by
  unfold Thread.admitReader
  split
  · unfold Thread.take
    split
    case h_1 at_ => rw [ann.acquire _ _ _ _ at_, held]
    case h_2 => exact held
  · exact held

/-- **The annotation rule**, for one step. -/
theorem Annotation.step [DecidableEq Pc] (ann : Annotation P locks) (holds : Annotated locks s)
    (stepped : step P action s = some s') :
    Annotated locks s' := by
  have at_of {i : Nat} {t : Thread Lock Pc} (here : s[i]? = some t) : t.held = locks t.pc :=
    holds t (List.mem_of_getElem? here)
  cases effect_of_step stepped with
  | spawn starts =>
    intro t mem
    rcases mem_snoc.mp mem with old | rfl
    · exact holds t old
    · exact (ann.entry _ starts).symm
  | park here _ _ | queue here _ | announce here _ =>
    have held := at_of here
    exact holds.set _ held
  | take here at_ => exact holds.set _ (by rw [ann.acquire _ _ _ _ at_, at_of here])
  | runlock here at_ => exact holds.set _ (by rw [ann.release _ _ _ _ at_, at_of here])
  | unlock here at_ =>
    intro u mem
    obtain ⟨t, old, rfl⟩ := List.mem_map.mp mem
    refine ann.admitReader (holds.set _ ?_ t old) _
    rw [ann.release _ _ _ _ at_, at_of here]
  | branch here at_ chosen => exact holds.set _ (by rw [ann.branch _ _ at_ _ chosen, at_of here])

def WaitsAt (kind : Pc → Bool) (s : State Lock Pc) : Prop :=
  ∃ t ∈ s, kind t.pc = true ∧ t.status ≠ .ready

instance (kind : Pc → Bool) (s : State Lock Pc) : Decidable (WaitsAt kind s) :=
  inferInstanceAs (Decidable (∃ t ∈ s, _))

omit [DecidableEq Lock] in
theorem WaitsAt.of_set (waits : WaitsAt kind (s.set i t)) :
    WaitsAt kind s ∨ kind t.pc = true ∧ t.status ≠ .ready := by
  obtain ⟨u, mem, here, waiting⟩ := waits
  rcases List.mem_or_eq_of_mem_set mem with old | rfl
  · exact .inl ⟨u, old, here, waiting⟩
  · exact .inr ⟨here, waiting⟩

theorem WaitsAt.of_admit (waits : WaitsAt kind (s.map fun u => u.admitReader P lock)) :
    WaitsAt kind s := by
  obtain ⟨_, mem, here, waiting⟩ := waits
  obtain ⟨t, old, rfl⟩ := List.mem_map.mp mem
  unfold Thread.admitReader at here waiting
  split at waiting
  case isTrue parked =>
    unfold Thread.take at waiting
    unfold Thread.wants at parked
    split at waiting <;> simp_all
  case isFalse other =>
    rw [if_neg other] at here
    exact ⟨t, old, here, waiting⟩

theorem waitsAt_of_step [DecidableEq Pc] (stepped : step P action s = some s')
    (waits : WaitsAt kind s') :
    WaitsAt kind s ∨ ∃ i t, action = .request i ∧ s[i]? = some t ∧ kind t.pc = true ∧
      ∀ lock, t.wants P = some (lock, .read) → ∃ w ∈ s, w.Writes P lock := by
  cases effect_of_step stepped with
  | spawn _ =>
    obtain ⟨t, mem, here, waiting⟩ := waits
    rcases mem_snoc.mp mem with old | rfl
    · exact .inl ⟨t, old, here, waiting⟩
    · exact absurd rfl waiting
  | park here wants writer =>
    refine waits.of_set.imp_right fun asks => ⟨_, _, rfl, here, asks.1, fun lock wanted => ?_⟩
    obtain rfl : _ = lock := congrArg Prod.fst (Option.some.inj (wants.symm.trans wanted))
    exact writer
  | queue here wants =>
    refine waits.of_set.imp_right fun asks => ⟨_, _, rfl, here, asks.1, fun lock wanted => ?_⟩
    cases wants.symm.trans wanted
  | announce here queued =>
    refine .inl (waits.of_set.elim id fun asks => ?_)
    exact ⟨_, List.mem_of_getElem? here, asks.1, by simp [queued]⟩
  | take here at_ | runlock here at_ | branch here at_ chosen =>
    exact .inl (waits.of_set.elim id fun asks => absurd rfl asks.2)
  | unlock here at_ => exact .inl (waits.of_admit.of_set.elim id fun asks => absurd rfl asks.2)

end Shale.Locking
