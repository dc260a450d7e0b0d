import Shale.Reshard.ArbiterAgreement

/-!
# Rolling out a declared unit count

`pkg/cluster` and `pkg/coord/cas`: every process advertises the unit count it is configured with
in a row of the shared membership document and keeps a view of the document that is as old as
its last poll. A reconcile tick moves the arbiter's target to the declared count if the arbiter
is at its target and all members of the process's own view declare the same count.

Processes are rolled from an old count to a new one. Polls, renewals, ticks, restarts and
advances of the arbiter interleave freely. Which members a poll judges expired is a choice of the
run; a process never expires itself. Rows carry neither the lease nor the incarnation.
-/

namespace Shale.Declared

open List Machine

structure Roll where
  old : UnitCount
  new : UnitCount
  differ : old.n ≠ new.n

/-- A row of the membership document, and a member of a view. -/
structure Row where
  id : Nat
  declaredUnitCount : Nat
deriving DecidableEq

def unanimousFrom (d : Nat) : List Row → Option Nat
  | [] => if d = 0 then none else some d
  | m :: rest =>
    if m.declaredUnitCount = 0 then none
    else if d = 0 then unanimousFrom m.declaredUnitCount rest
    else if m.declaredUnitCount ≠ d then none
    else unanimousFrom d rest

def unanimousDeclaredCount (members : List Row) : Option Nat := unanimousFrom 0 members

def upsert (rows : List Row) (row : Row) : List Row :=
  if rows.any (fun old => old.id == row.id) then
    rows.map fun old => if old.id = row.id then row else old
  else rows ++ [row]

def unexpired (self : Nat) (rows : List Row) (expired : List Nat) : List Row :=
  rows.filter fun row => row.id == self || !expired.contains row.id

def observe (self : Row) (rows : List Row) (expired : List Nat) : List Row :=
  if (unexpired self.id rows expired).any (fun row => row.id == self.id) then
    unexpired self.id rows expired
  else unexpired self.id rows expired ++ [self]

/-- How far a tick of `observeDeclaredReshardTarget` has come. -/
inductive Task where
  | idle
  | checked (agreed : Arbiter.State Nat)
  | retargeting (target : UnitCount)
deriving DecidableEq

/-- A process, or the one that has replaced it. It has no view while it is down; `polled` is the
document that its poll loop has read and not yet published. -/
structure Process where
  replaced : Bool
  view : Option (List Row)
  polled : Option (List Row)
  task : Task
deriving DecidableEq

def Process.down (replaced : Bool) : Process := ⟨replaced, none, none, .idle⟩

def Roll.declared (c : Roll) (p : Process) : UnitCount := if p.replaced then c.new else c.old

def Roll.row (c : Roll) (n : Nat) (p : Process) : Row := ⟨n, (c.declared p).n⟩

structure State where
  doc : List Row
  arbiter : Arbiter.State Nat
  procs : List Process

inductive Action where
  | start (n : Nat)
  | stop (n : Nat)
  | replace (n : Nat)
  | renew (n : Nat)
  | poll (n : Nat)
  | publish (n : Nat) (expired : List Nat) (gc : Bool)
  | read (n : Nat)
  | decide (n : Nat)
  | retarget (n : Nat)
  | giveUp (n : Nat)
  | advance

def initial (count : Nat) (agreed : Arbiter.State Nat) : State :=
  ⟨[], agreed, List.replicate count (.down false)⟩

def after (event : Arbiter.Event) (cur : Arbiter.State Nat) : Arbiter.State Nat :=
  match Arbiter.atomic.step event (some cur) with
  | some (some next) => next
  | _ => cur

def decideTask (agreed : Arbiter.State Nat) (view : List Row) : Task :=
  match unanimousDeclaredCount view with
  | none => .idle
  | some d =>
    if d = agreed.target.n then .idle
    else
      match UnitCount.new d with
      | .error _ => .idle
      | .ok target => .retargeting target

def procStep (c : Roll) (s : State) (n : Nat) (p : Process) :
    Action → Option (List Row × Arbiter.State Nat × Process)
  | .start _ =>
    if p.view.isNone then
      -- the document that the bootstrap has written is the first view
      some (upsert s.doc (c.row n p), s.arbiter,
        { p with view := some (observe (c.row n p) (upsert s.doc (c.row n p)) []) })
    else none
  | .stop _ => some (s.doc, s.arbiter, .down p.replaced)
  | .replace _ => if p.replaced then none else some (s.doc, s.arbiter, .down true)
  | .renew _ =>
    if p.view.isSome ∧ ¬ s.doc.any (fun row => row.id == n) then
      some (upsert s.doc (c.row n p), s.arbiter, p)
    else none
  | .poll _ =>
    if p.view.isSome then some (s.doc, s.arbiter, { p with polled := some s.doc }) else none
  | .publish _ expired gc =>
    match p.view, p.polled with
    | some _, some rows =>
      -- the rows of the expired go if the document is still the one that was read
      some (if gc ∧ s.doc = rows then unexpired n rows expired else s.doc, s.arbiter,
        { p with view := some (observe (c.row n p) rows expired), polled := none })
    | _, _ => none
  | .read _ =>
    if p.view.isSome ∧ p.task = .idle ∧ s.arbiter.count.n = s.arbiter.target.n then
      some (s.doc, s.arbiter, { p with task := .checked s.arbiter })
    else none
  | .decide _ =>
    match p.view, p.task with
    | some view, .checked agreed =>
      some (s.doc, s.arbiter, { p with task := decideTask agreed view })
    | _, _ => none
  | .retarget _ =>
    match p.task with
    | .retargeting target =>
      some (s.doc, after (.retarget target) s.arbiter, { p with task := .idle })
    | .idle | .checked _ => none
  | .giveUp _ => some (s.doc, s.arbiter, { p with task := .idle })
  | .advance => none

def Action.proc? : Action → Option Nat
  | .advance => none
  | .start n | .stop n | .replace n | .renew n | .poll n | .publish n _ _ | .read n | .decide n
  | .retarget n | .giveUp n => some n

def step (c : Roll) (action : Action) (s : State) : Option State :=
  match action.proc? with
  | none => some { s with arbiter := after .advance s.arbiter }
  | some n =>
    s.procs[n]?.bind fun p =>
      (procStep c s n p action).map fun (doc, arbiter, p) =>
        ⟨doc, arbiter, s.procs.set n p⟩

def machine (c : Roll) : Machine State Action := ⟨step c⟩

variable {c : Roll} {s s' : State} {action : Action} {n : Nat} {p : Process} {rows : List Row}
  {row : Row}

theorem eq_of_unanimousFrom {d found : Nat} (unanimous : unanimousFrom d rows = some found) :
    (d = 0 ∨ d = found) ∧ ∀ row ∈ rows, row.declaredUnitCount = found := by
  induction rows generalizing d with
  | nil =>
    simp only [unanimousFrom] at unanimous
    split at unanimous
    · cases unanimous
    · exact ⟨.inr (Option.some.inj unanimous), by simp⟩
  | cons m rest ih =>
    simp only [unanimousFrom] at unanimous
    split at unanimous
    · cases unanimous
    case isFalse known =>
      split at unanimous
      case isTrue first =>
        obtain ⟨zero | same, all⟩ := ih unanimous
        · exact absurd zero known
        · exact ⟨.inl first, forall_mem_cons.mpr ⟨same, all⟩⟩
      case isFalse started =>
        split at unanimous
        · cases unanimous
        case isFalse agrees =>
          obtain ⟨zero | same, all⟩ := ih unanimous
          · exact absurd zero started
          · refine ⟨.inr same, forall_mem_cons.mpr ⟨?_, all⟩⟩
            rw [← same]
            exact not_not.mp agrees

theorem eq_of_unanimous {d : Nat} (unanimous : unanimousDeclaredCount rows = some d)
    (mem : row ∈ rows) : row.declaredUnitCount = d :=
  (eq_of_unanimousFrom unanimous).2 row mem

theorem of_mem_upsert {new : Row} (mem : row ∈ upsert rows new) :
    row = new ∨ row ∈ rows ∧ row.id ≠ new.id := by
  unfold upsert at mem
  split at mem
  · obtain ⟨old, present, rfl⟩ := mem_map.mp mem
    split
    · exact .inl rfl
    case isFalse other => exact .inr ⟨present, other⟩
  case isFalse absent =>
    rcases mem_append.mp mem with present | same
    · refine .inr ⟨present, fun same => absent ?_⟩
      exact any_eq_true.mpr ⟨row, present, by simp [same]⟩
    · exact .inl (mem_singleton.mp same)

theorem of_mem_observe {self : Row} {expired : List Nat}
    (mem : row ∈ observe self rows expired) : row ∈ rows ∨ row = self := by
  unfold observe at mem
  split at mem
  · exact .inl (mem_of_mem_filter mem)
  · rcases mem_append.mp mem with present | same
    · exact .inl (mem_of_mem_filter present)
    · exact .inr (mem_singleton.mp same)

theorem exists_mem_observe (self : Row) (rows : List Row) (expired : List Nat) :
    ∃ row ∈ observe self rows expired, row.id = self.id := by
  unfold observe
  split
  case isTrue seen =>
    obtain ⟨row, mem, same⟩ := any_eq_true.mp seen
    exact ⟨row, mem, by simpa using same⟩
  case isFalse => exact ⟨self, by simp, rfl⟩

def State.Replaced (s : State) (id : Nat) : Prop := ∀ p, s.procs[id]? = some p → p.replaced

def State.unreplaced (s : State) : List Nat :=
  (List.range s.procs.length).filter fun id => s.procs[id]?.any fun p => !p.replaced

theorem mem_unreplaced {id : Nat} (missing : ¬ s.Replaced id) : id ∈ s.unreplaced := by
  simp only [State.Replaced, not_forall] at missing
  obtain ⟨p, found, old⟩ := missing
  refine mem_filter.mpr ⟨mem_range.mpr (List.getElem?_eq_some_iff.mp found).1, ?_⟩
  simp [found, old]

theorem replaced_of_declared (declares : (c.declared p).n = c.new.n) : p.replaced := by
  unfold Roll.declared at declares
  split at declares
  · assumption
  · exact absurd declares c.differ

def RowsSound (c : Roll) (replaced : Nat → Prop) (rows : List Row) : Prop :=
  ∀ row ∈ rows, row.declaredUnitCount = c.new.n → replaced row.id

def OwnRows (c : Roll) (n : Nat) (p : Process) (rows : List Row) : Prop :=
  ∀ row ∈ rows, row.id = n → row.declaredUnitCount = (c.declared p).n

/-- What is known of a process: its view and the document it has polled are sound, it is in its
own view, and if it is to move the target to the new count, all have been replaced. -/
structure ProcSound (c : Roll) (replaced : Nat → Prop) (n : Nat) (p : Process) : Prop where
  view : ∀ rows ∈ p.view, RowsSound c replaced rows ∧ OwnRows c n p rows ∧
    ∃ row ∈ rows, row.id = n
  polled : ∀ rows ∈ p.polled, RowsSound c replaced rows ∧ OwnRows c n p rows
  task : ∀ target, p.task = .retargeting target →
    target = c.declared p ∧ (p.replaced → ∀ id, replaced id)

structure Sound (c : Roll) (s : State) : Prop where
  doc : RowsSound c s.Replaced s.doc
  procs : ∀ {n p}, s.procs[n]? = some p → ProcSound c s.Replaced n p
  own : ∀ {n p}, s.procs[n]? = some p → p.view.isSome → OwnRows c n p s.doc

theorem ProcSound.mono {R R' : Nat → Prop} (sound : ProcSound c R n p)
    (kept : ∀ id, R id → R' id) : ProcSound c R' n p where
  view := fun rows shown =>
    have ⟨fresh, own, present⟩ := sound.view rows shown
    ⟨fun row mem new => kept _ (fresh row mem new), own, present⟩
  polled := fun rows read =>
    have ⟨fresh, own⟩ := sound.polled rows read
    ⟨fun row mem new => kept _ (fresh row mem new), own⟩
  task := fun target moving =>
    have ⟨same, all⟩ := sound.task target moving
    ⟨same, fun replaced id => kept id (all replaced id)⟩

theorem sound_initial (c : Roll) (count : Nat) (agreed : Arbiter.State Nat) :
    Sound c (initial count agreed) := by
  have down : ∀ {n : Nat} {p : Process}, (initial count agreed).procs[n]? = some p →
      p = Process.down false := by
    intro n p found
    exact eq_of_mem_replicate (mem_of_getElem? found)
  refine ⟨nofun, fun found => ?_, fun found up => ?_⟩
  · obtain rfl := down found
    exact ⟨nofun, nofun, nofun⟩
  · obtain rfl := down found
    cases up

theorem replaced_set {p' : Process} {doc : List Row} {arbiter : Arbiter.State Nat}
    (found : s.procs[n]? = some p) (kept : p.replaced → p'.replaced) {id : Nat}
    (replaced : s.Replaced id) : State.Replaced ⟨doc, arbiter, s.procs.set n p'⟩ id := by
  intro q now
  by_cases same : id = n
  · subst same
    obtain ⟨below, -⟩ := List.getElem?_eq_some_iff.mp found
    simp only [List.getElem?_set_self below] at now
    cases now
    exact kept (replaced p found)
  · simp only [List.getElem?_set_ne (Ne.symm same)] at now
    exact replaced q now

theorem Sound.set {p' : Process} {doc : List Row} {arbiter : Arbiter.State Nat} (sound : Sound c s)
    (found : s.procs[n]? = some p) (kept : p.replaced → p'.replaced)
    (rows : ∀ row ∈ doc, row ∈ s.doc ∨ row = c.row n p') (own : p'.view.isSome → OwnRows c n p' doc)
    (proc : ∀ {R : Nat → Prop}, (∀ id, s.Replaced id → R id) → (p'.replaced → R n) →
      ProcSound c R n p') : Sound c ⟨doc, arbiter, s.procs.set n p'⟩ := by
  have grown : ∀ id, s.Replaced id → State.Replaced ⟨doc, arbiter, s.procs.set n p'⟩ id :=
    fun id => replaced_set found kept
  obtain ⟨below, -⟩ := List.getElem?_eq_some_iff.mp found
  have self : p'.replaced → State.Replaced ⟨doc, arbiter, s.procs.set n p'⟩ n := by
    intro replaced q now
    simp only [List.getElem?_set_self below] at now
    rwa [← Option.some.inj now]
  refine ⟨fun row mem new => ?_, fun {m q} there => ?_, fun {m q} there up => ?_⟩
  · rcases rows row mem with old | rfl
    · exact grown _ (sound.doc row old new)
    · exact self (replaced_of_declared new)
  · by_cases same : m = n
    · subst same
      simp only [List.getElem?_set_self below] at there
      cases there
      exact proc grown self
    · simp only [List.getElem?_set_ne (Ne.symm same)] at there
      exact (sound.procs there).mono grown
  · by_cases same : m = n
    · subst same
      simp only [List.getElem?_set_self below] at there
      cases there
      exact own up
    · simp only [List.getElem?_set_ne (Ne.symm same)] at there
      intro row mem theirs
      rcases rows row mem with old | rfl
      · exact sound.own there up row old theirs
      · exact absurd theirs.symm same

def SeesAll (c : Roll) (s : State) : Action → Prop
  | .decide n => ∀ p ∈ s.procs[n]?, ∀ view ∈ p.view,
      unanimousDeclaredCount view = some c.new.n → ∀ id ∈ s.unreplaced, id ∈ view.map Row.id
  | _ => True

instance (c : Roll) : DecidableRel (SeesAll c) := fun s action =>
  match action with
  | .decide n => inferInstanceAs (Decidable (∀ p ∈ s.procs[n]?, ∀ view ∈ p.view,
      unanimousDeclaredCount view = some c.new.n → ∀ id ∈ s.unreplaced, id ∈ view.map Row.id))
  | .start _ | .stop _ | .replace _ | .renew _ | .poll _ | .publish .. | .read _ | .retarget _
  | .giveUp _ | .advance => isTrue trivial

theorem view_observe {R : Nat → Prop} {expired : List Nat} (fresh : RowsSound c R rows)
    (own : OwnRows c n p rows) (self : p.replaced → R n) :
    RowsSound c R (observe (c.row n p) rows expired) ∧
      OwnRows c n p (observe (c.row n p) rows expired) ∧
      ∃ row ∈ observe (c.row n p) rows expired, row.id = n := by
  refine ⟨fun row mem new => ?_, fun row mem same => ?_, exists_mem_observe ..⟩
  · rcases of_mem_observe mem with present | rfl
    · exact fresh row present new
    · exact self (replaced_of_declared new)
  · rcases of_mem_observe mem with present | rfl
    · exact own row present same
    · rfl

theorem ownRows_upsert : OwnRows c n p (upsert rows (c.row n p)) := by
  intro row mem same
  rcases of_mem_upsert mem with rfl | ⟨-, other⟩
  · rfl
  · exact absurd same other

theorem eq_declared_of_decideTask {agreed : Arbiter.State Nat} {view : List Row}
    {target : UnitCount} (own : OwnRows c n p view) (present : ∃ row ∈ view, row.id = n)
    (decided : decideTask agreed view = .retargeting target) :
    unanimousDeclaredCount view = some target.n ∧ target = c.declared p := by
  unfold decideTask at decided
  split at decided
  · cases decided
  case h_2 d unanimous =>
    split at decided
    · cases decided
    · split at decided
      · cases decided
      case h_2 valid made =>
        obtain rfl := Task.retargeting.inj decided
        have same : valid.n = d := by
          have := UnitCount.n_of_new made
          omega
        obtain ⟨row, mem, self⟩ := present
        refine ⟨by rw [unanimous, same], UnitCount.ext ?_⟩
        rw [same, ← eq_of_unanimous unanimous mem, own row mem self]

section

variable (sound : Sound c s) (found : s.procs[n]? = some p)
include sound found

theorem Sound.setDown {replaced : Bool} {arbiter : Arbiter.State Nat}
    (kept : p.replaced → replaced) :
    Sound c ⟨s.doc, arbiter, s.procs.set n (.down replaced)⟩ :=
  sound.set found kept (fun _ => .inl) nofun fun _ _ => ⟨nofun, nofun, nofun⟩

theorem Sound.setTask {task : Task} {arbiter : Arbiter.State Nat}
    (moves : ∀ target, task = .retargeting target →
      target = c.declared p ∧ (p.replaced → ∀ id, s.Replaced id)) :
    Sound c ⟨s.doc, arbiter, s.procs.set n { p with task }⟩ := by
  have own := sound.own found
  refine sound.set found id (fun _ => .inl) own fun kept _ => ?_
  refine { (sound.procs found).mono kept with task := fun target moving => ?_ }
  obtain ⟨same, all⟩ := moves target moving
  exact ⟨same, fun replaced id => kept id (all replaced id)⟩

theorem Sound.setStarted {arbiter : Arbiter.State Nat} :
    Sound c ⟨upsert s.doc (c.row n p), arbiter, s.procs.set n { p with
      view := some (observe (c.row n p) (upsert s.doc (c.row n p)) []) }⟩ := by
  refine sound.set found id (fun row member => ?_) (fun _ => ownRows_upsert) ?_
  · exact (of_mem_upsert member).symm.imp And.left id
  · intro R kept self
    refine { (sound.procs found).mono kept with view := fun rows shown => ?_ }
    cases shown
    refine view_observe (fun row member new => ?_) ownRows_upsert self
    rcases of_mem_upsert member with rfl | ⟨old, -⟩
    · exact self (replaced_of_declared new)
    · exact kept _ (sound.doc row old new)

theorem Sound.setPublished {doc : List Row} {arbiter : Arbiter.State Nat} {expired : List Nat}
    (up : p.view.isSome) (read : p.polled = some rows) (remain : ∀ row ∈ doc, row ∈ s.doc) :
    Sound c ⟨doc, arbiter, s.procs.set n { p with
      view := some (observe (c.row n p) rows expired), polled := none }⟩ := by
  obtain ⟨fresh, own⟩ := (sound.procs found).polled rows read
  refine sound.set found id (fun row member => .inl (remain row member)) ?_ fun kept self => ?_
  · exact fun _ row member => sound.own found up row (remain row member)
  · refine { (sound.procs found).mono kept with view := fun rows shown => ?_, polled := nofun }
    cases shown
    exact view_observe (fun row member new => kept _ (fresh row member new)) own self

theorem Sound.procStep {doc : List Row} {arbiter : Arbiter.State Nat} {p' : Process}
    (own : action.proc? = some n) (permitted : SeesAll c s action)
    (stepped : procStep c s n p action = some (doc, arbiter, p')) :
    Sound c ⟨doc, arbiter, s.procs.set n p'⟩ := by
  have proc := sound.procs found
  cases action with
  | start _ =>
    obtain ⟨-, ended⟩ := of_guard stepped
    obtain ⟨rfl, rfl, rfl⟩ := by simpa using ended
    exact sound.setStarted found
  | stop _ =>
    obtain ⟨rfl, rfl, rfl⟩ := by simpa [Declared.procStep] using stepped
    exact sound.setDown found id
  | replace _ =>
    simp only [Declared.procStep] at stepped
    split at stepped
    · cases stepped
    · obtain ⟨rfl, rfl, rfl⟩ := by simpa using stepped
      exact sound.setDown found fun _ => rfl
  | renew _ =>
    obtain ⟨-, ended⟩ := of_guard stepped
    obtain ⟨rfl, rfl, rfl⟩ := by simpa using ended
    refine sound.set found id (fun row member => ?_) (fun _ => ownRows_upsert)
      fun kept _ => proc.mono kept
    exact (of_mem_upsert member).symm.imp And.left id
  | poll _ =>
    obtain ⟨up, ended⟩ := of_guard stepped
    obtain ⟨rfl, rfl, rfl⟩ := by simpa using ended
    have own := sound.own found up
    refine sound.set found id (fun _ => .inl) (fun _ => own) fun kept _ => ?_
    refine { proc.mono kept with polled := fun rows read => ?_ }
    cases read
    exact ⟨fun row member new => kept _ (sound.doc row member new), own⟩
  | publish _ expired gc =>
    simp only [Declared.procStep] at stepped
    split at stepped
    case h_1 old rows shown read =>
      obtain ⟨rfl, rfl, rfl⟩ := by simpa using stepped
      refine sound.setPublished found (by simp [shown]) read fun row member => ?_
      split at member
      case isTrue same => exact same.2 ▸ mem_of_mem_filter member
      case isFalse => exact member
    case h_2 => cases stepped
  | read _ =>
    obtain ⟨-, ended⟩ := of_guard stepped
    obtain ⟨rfl, rfl, rfl⟩ := by simpa using ended
    exact sound.setTask found nofun
  | decide _ =>
    simp only [Declared.procStep] at stepped
    split at stepped
    case h_1 view agreed shown checked =>
      obtain ⟨rfl, rfl, rfl⟩ := by simpa using stepped
      cases own
      obtain ⟨fresh, own, present⟩ := proc.view view shown
      refine sound.setTask found fun target moving => ?_
      obtain ⟨unanimous, same⟩ := eq_declared_of_decideTask own present moving
      refine ⟨same, fun replaced id => by_contra fun missing => ?_⟩
      have new : target = c.new := by rw [same, Roll.declared, if_pos replaced]
      rw [new] at unanimous
      obtain ⟨row, member, rfl⟩ := mem_map.mp
        (permitted p found view shown unanimous id (mem_unreplaced missing))
      exact missing (fresh row member (eq_of_unanimous unanimous member))
    case h_2 => cases stepped
  | retarget _ =>
    simp only [Declared.procStep] at stepped
    split at stepped
    · obtain ⟨rfl, rfl, rfl⟩ := by simpa using stepped
      exact sound.setTask found nofun
    all_goals cases stepped
  | giveUp _ =>
    obtain ⟨rfl, rfl, rfl⟩ := by simpa [Declared.procStep] using stepped
    exact sound.setTask found nofun
  | advance => cases stepped

end

theorem of_step (stepped : (machine c).step action s = some s') :
    action = .advance ∧ s' = { s with arbiter := after .advance s.arbiter } ∨
      ∃ n p doc arbiter p', action.proc? = some n ∧ s.procs[n]? = some p ∧
        procStep c s n p action = some (doc, arbiter, p') ∧
        s' = ⟨doc, arbiter, s.procs.set n p'⟩ := by
  simp only [machine, step] at stepped
  split at stepped
  case h_1 nobody =>
    refine .inl ⟨?_, (Option.some.inj stepped).symm⟩
    cases action <;> first | rfl | cases nobody
  case h_2 n own =>
    obtain ⟨p, found, mapped⟩ := Option.bind_eq_some_iff.mp stepped
    obtain ⟨⟨doc, arbiter, p'⟩, taken, rfl⟩ := Option.map_eq_some_iff.mp mapped
    exact .inr ⟨n, p, doc, arbiter, p', own, found, taken, rfl⟩

theorem Sound.step (sound : Sound c s) (permitted : SeesAll c s action)
    (stepped : (machine c).step action s = some s') : Sound c s' := by
  rcases of_step stepped with ⟨-, rfl⟩ | ⟨n, p, doc, arbiter, p', own, found, taken, rfl⟩
  · exact ⟨sound.doc, sound.procs, sound.own⟩
  · exact sound.procStep found own permitted taken

theorem target_after_advance (cur : Arbiter.State Nat) :
    (after .advance cur).target = cur.target := by
  simp only [after, Arbiter.atomic]
  cases planned : Arbiter.planNext cur with
  | error message => rfl
  | ok result =>
    cases result with
    | none => rfl
    | some next => exact (Arbiter.advanced_of_planNext planned).target

theorem target_after_retarget (cur : Arbiter.State Nat) (target : UnitCount) :
    (after (.retarget target) cur).target = target := by
  by_cases same : cur.target.n = target.n
  · simp only [after, Arbiter.atomic, if_pos same]
    exact UnitCount.ext same
  · simp only [after, Arbiter.atomic, if_neg same]
    rfl

theorem procStep_cases {doc : List Row} {arbiter : Arbiter.State Nat} {p' : Process}
    (taken : procStep c s n p action = some (doc, arbiter, p')) :
    (p.replaced → p'.replaced) ∧ (arbiter = s.arbiter ∨
      ∃ target, p.task = .retargeting target ∧ arbiter = after (.retarget target) s.arbiter) := by
  cases action with
  | start _ | renew _ | poll _ | read _ =>
    obtain ⟨-, ended⟩ := of_guard taken
    obtain ⟨-, rfl, rfl⟩ := by simpa using ended
    exact ⟨id, .inl rfl⟩
  | stop _ | giveUp _ =>
    obtain ⟨-, rfl, rfl⟩ := by simpa [procStep] using taken
    exact ⟨id, .inl rfl⟩
  | replace _ =>
    simp only [procStep] at taken
    split at taken
    · cases taken
    · obtain ⟨-, rfl, rfl⟩ := by simpa using taken
      exact ⟨fun _ => rfl, .inl rfl⟩
  | publish _ _ _ | decide _ =>
    simp only [procStep] at taken
    split at taken
    case h_1 =>
      obtain ⟨-, rfl, rfl⟩ := by simpa using taken
      exact ⟨id, .inl rfl⟩
    case h_2 => cases taken
  | retarget _ =>
    simp only [procStep] at taken
    split at taken
    case h_1 target moving =>
      obtain ⟨-, rfl, rfl⟩ := by simpa using taken
      exact ⟨id, .inr ⟨target, moving, rfl⟩⟩
    all_goals cases taken
  | advance => cases taken

theorem target_cases (stepped : (machine c).step action s = some s') :
    s'.arbiter.target = s.arbiter.target ∨
      ∃ (n : Nat) (p : Process), s.procs[n]? = some p ∧
        p.task = .retargeting s'.arbiter.target := by
  rcases of_step stepped with ⟨-, rfl⟩ | ⟨n, p, doc, arbiter, p', -, found, taken, rfl⟩
  · exact .inl (target_after_advance _)
  · obtain ⟨-, rfl | ⟨target, moving, rfl⟩⟩ := procStep_cases taken
    · exact .inl rfl
    · exact .inr ⟨n, p, found, by rw [moving, target_after_retarget]⟩

theorem replaced_of_step (stepped : (machine c).step action s = some s') {id : Nat}
    (replaced : s.Replaced id) : s'.Replaced id := by
  rcases of_step stepped with ⟨-, rfl⟩ | ⟨n, p, doc, arbiter, p', -, found, taken, rfl⟩
  · exact replaced
  · exact replaced_set found (procStep_cases taken).1 replaced

/-- Once the target has been moved to the new count it stays there, in every run in which a
process that finds the new count unanimous sees every process that still declares the old one. -/
theorem target_never_moves_back {count : Nat} {agreed : Arbiter.State Nat} {moved : State}
    (reached : (machine c).Reaches (SeesAll c) (initial count agreed) s)
    (stepped : (machine c).step action s = some moved)
    (elsewhere : s.arbiter.target ≠ c.new) (moves : moved.arbiter.target = c.new)
    (permitted : SeesAll c s action) (onward : (machine c).Reaches (SeesAll c) moved s') :
    s'.arbiter.target = c.new := by
  have sound : ∀ {s}, (machine c).Reaches (SeesAll c) (initial count agreed) s → Sound c s :=
    fun reached => reached.invariant (sound_initial c count agreed)
      fun sound permitted stepped => sound.step permitted stepped
  -- the process that moved the target declares the new count, so it has seen all replaced
  have all : ∀ id, s.Replaced id := by
    rcases target_cases stepped with same | ⟨n, p, found, moving⟩
    · exact absurd (same.symm.trans moves) elsewhere
    · obtain ⟨declares, replaced⟩ := ((sound reached).procs found).task _ moving
      have new : (c.declared p).n = c.new.n := by rw [← declares, moves]
      exact replaced (replaced_of_declared new)
  have kept : Sound c s' ∧ (∀ id, s'.Replaced id) ∧ s'.arbiter.target = c.new := by
    induction onward with
    | refl =>
      exact ⟨(sound reached).step permitted stepped,
        fun id => replaced_of_step stepped (all id), moves⟩
    | tail _ permitted stepped ih =>
      obtain ⟨sound, all, new⟩ := ih
      refine ⟨sound.step permitted stepped, fun id => replaced_of_step stepped (all id), ?_⟩
      rcases target_cases stepped with same | ⟨n, p, found, moving⟩
      · rw [same, new]
      · obtain ⟨declares, -⟩ := (sound.procs found).task _ moving
        rw [declares, Roll.declared, if_pos (all n p found)]
  exact kept.2.2

def doubling : Roll := ⟨.one, .two, by decide⟩

/-- Both processes are replaced, and then the first one finds the new count unanimous. -/
def rolledOut : List Action :=
  [.start 0, .start 1, .replace 0, .start 0, .replace 1, .start 1, .poll 0, .publish 0 [] false,
    .read 0, .decide 0]

theorem target_stays_after_roll :
    let s := (machine doubling).endOf (SeesAll doubling) rolledOut (initial 2 (.seed .one))
    let moved := (machine doubling).endOf (SeesAll doubling) [.retarget 0] s
    let later := (machine doubling).endOf (SeesAll doubling) [.advance, .read 1, .decide 1] moved
    s.arbiter.target = .one ∧ moved.arbiter.target = .two ∧ later.arbiter.target = .two := by
  intro s moved later
  have reached : (machine doubling).Reaches (SeesAll doubling) (initial 2 (.seed .one)) s :=
    reaches_endOf _ _ rolledOut _ (by decide)
  have stepped : (machine doubling).step (.retarget 0) s = some moved := rfl
  have onward : (machine doubling).Reaches (SeesAll doubling) moved later :=
    reaches_endOf _ _ _ _ (by decide)
  exact ⟨by decide, by decide,
    target_never_moves_back reached stepped (by decide) (by decide) trivial onward⟩

/-- The first of two processes is replaced and does not see the second one, which is cut off
from the store. It moves the target, and the arbiter follows. -/
def halfRolled : List Action :=
  [.start 0, .start 1, .replace 0, .start 0, .poll 0, .publish 0 [1] true, .read 0, .decide 0,
    .retarget 0, .advance]

/-- The second process is back. Its view is from before the roll, and it moves the target back
to the old count. -/
theorem stale_view_moves_target_back :
    let moved := (machine doubling).endOf anyAction halfRolled (initial 2 (.seed .one))
    let back := (machine doubling).endOf anyAction [.read 1, .decide 1, .retarget 1] moved
    (machine doubling).Reaches anyAction (initial 2 (.seed .one)) moved ∧
      moved.arbiter.target = doubling.new ∧
      (machine doubling).Reaches anyAction moved back ∧
      back.arbiter.target = doubling.old :=
  ⟨reaches_endOf _ _ _ _ (by decide), by decide,
    reaches_endOf _ _ _ _ (by decide), by decide⟩

end Shale.Declared
