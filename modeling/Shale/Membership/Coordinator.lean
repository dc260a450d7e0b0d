import Shale.Foundation.CondStore
import Shale.Foundation.Threads
import Shale.Membership.Observer

/-!
# Coordinators over one membership document

Any number of processes run a coordinator each over the same document, and several of them may
have the same node ID. A process has one thread that starts it, one renewal loop and one poll
loop, any number of `SetRole` calls and one `Close`. A thread makes one access to the store or
one local step at a time, and the steps of all threads interleave.

An access to the store may fail without an effect, and a conditional write may also take effect
and still return an error to its caller (`Event.lose`).
-/

namespace Shale.Membership

/-- How often a read-modify-write loop runs. -/
def casAttempts : Nat := 8

inductive Thread where
  | start
  | renew
  | poll
  /-- One call of `SetRole`, by its number. -/
  | setRole (call : Nat) (want : Role)
  | close
deriving DecidableEq

inductive Bootstrap where
  | founded
  | joined
deriving DecidableEq

/-- What a thread makes of a document. -/
inductive Change where
  | boot (inc : Nat)
  | renew (roles : Role)
  | add (roles : Role) (inc : Nat)
  | setRoles (roles : Role)
  | remove
  | drop (expired : List String)
deriving DecidableEq

inductive Result where
  | ok
  | bootstrapped (boot : Bootstrap)
  | error (message : String)
deriving DecidableEq

/-- How far a thread has come. A count `left` says how many more attempts its loop has. -/
inductive Phase (Version : Type) where
  | idle
  | entered
  | bootPut (left inc : Nat)
  | bootGet (left inc : Nat)
  | bootSet (left inc : Nat) (cur : Document) (ver : Version)
  | bootstrapped (boot : Bootstrap) (d : Document) (ver : Version)
  /-- In `observe`, called by `Start` with its outcome or by a poll. -/
  | observing (boot : Option Bootstrap) (d : Document) (ver : Version)
  | collecting (boot : Option Bootstrap) (expired : List String) (d : Document) (ver : Version)
  | finishing (boot : Bootstrap)
  | polling
  | recording
  | waiting
  /-- In `mutate`; the document is absent where `base` is `none`. -/
  | reading (left : Nat)
  | editing (left : Nat) (base : Option (Document × Version))
  | writing (left : Nat) (base : Option (Document × Version)) (change : Change)
  | settingInc (inc : Nat)
  | steppingDown
  | returned (result : Result)
deriving DecidableEq

/-- What one process remembers. `selfInc` is the incarnation it has last recorded as its own and
`stopped` tells that `Close` has seen both loops end. The documents that its passes have
observed, the newest first, are a record of the model only. -/
structure Proc where
  started : Bool
  closed : Bool
  stopped : Bool
  displaced : Bool
  roles : Role
  selfInc : Option Nat
  observer : Observer
  seen : List Document

def Proc.new : Proc := ⟨false, false, false, false, 0, none, .new, []⟩

structure Shared where
  document : CondObject Document
  minted : List (Nat × Thread)
  procs : Nat → Proc

/-- What a thread may meet: it is called, makes its next step, fails to reach the store, or
loses the answer to a conditional write that takes effect. -/
inductive Event where
  | call
  | access
  | fail (reason : String)
  | lose (reason : String)

def Shared.rows (o : Shared) : Document := o.document.current.getD []

def Shared.setProc (o : Shared) (pid : Nat) (edit : Proc → Proc) : Shared :=
  { o with procs := Function.update o.procs pid (edit (o.procs pid)) }

def Shared.mint (o : Shared) (name : Nat × Thread) : Shared :=
  { o with minted := o.minted ++ [name] }

def founderRow (cfg : Config) (inc : Nat) : DocRow :=
  ⟨cfg.self.id, cfg.self.addr, cfg.initialRoles.without .joining, cfg.declaredUnitCount, 1, inc⟩

def bootOf (cur : Document) : Bootstrap := if cur = [] then .founded else .joined

def bootRow (cfg : Config) (cur : Document) (inc : Nat) : DocRow :=
  match bootOf cur with
  | .founded => founderRow cfg inc
  | .joined => { founderRow cfg inc with roles := cfg.initialRoles }

def readdedRow (cfg : Config) (roles : Role) (inc : Nat) : DocRow :=
  ⟨cfg.self.id, cfg.self.addr, roles, cfg.declaredUnitCount, 1, inc⟩

def bootRoles (cfg : Config) : Bootstrap → Role
  | .founded => cfg.initialRoles.without .joining
  | .joined => cfg.initialRoles

def Change.apply (cfg : Config) (d : Document) : Change → Document
  | .boot inc => d.upsert (bootRow cfg d inc)
  | .renew roles =>
    d.editRow cfg.self.id fun row => { row with leaseGen := row.leaseGen + 1, roles }
  | .add roles inc => d.upsert (readdedRow cfg roles inc)
  | .setRoles roles => d.editRow cfg.self.id fun row => { row with roles }
  | .remove => d.remove cfg.self.id
  | .drop expired => d.dropIds expired

/-- What a closure of `mutate` decides. -/
inductive Edit where
  | skip
  | displaced
  | change (change : Change)

def edit (cfg : Config) (proc : Proc) (fresh : Nat) (d : Document) : Thread → Edit
  | .renew =>
    match d.find cfg.self.id with
    | some row =>
      if some row.inc ≠ proc.selfInc then .displaced else .change (.renew proc.roles)
    | none => .change (.add proc.roles fresh)
  | .setRole _ _ =>
    match d.find cfg.self.id with
    | none => .skip
    | some row => if row.roles = proc.roles then .skip else .change (.setRoles proc.roles)
  | .close =>
    match d.find cfg.self.id with
    | none => .skip
    | some _ => .change .remove
  | .start | .poll => .skip

section Phases

variable {Version : Type}

def Phase.base : Phase Version → Option (Document × Version)
  | .bootSet _ _ d ver | .bootstrapped _ d ver | .observing _ d ver | .collecting _ _ d ver =>
    some (d, ver)
  | .editing _ base | .writing _ base _ => base
  | _ => none

/-- The conditional write that is a thread's next step: the change it makes to the document it
holds. -/
def Phase.pending : Phase Version → Option Change
  | .bootPut _ inc | .bootSet _ inc _ _ => some (.boot inc)
  | .collecting _ expired _ _ => some (.drop expired)
  | .writing _ _ change => some change
  | _ => none

def Phase.rows (phase : Phase Version) : Document := (phase.base.map Prod.fst).getD []

/-- Neither a call nor a pass is under way. -/
def Phase.inactive : Phase Version → Bool
  | .idle | .returned _ => true
  | _ => false

def finish (th : Thread) (result : Result) : Phase Version :=
  match th with
  | .close => .returned .ok
  | _ => .returned result

def afterPass : Option Bootstrap → Phase Version
  | some boot => .finishing boot
  | none => .returned .ok

def retryBoot (left inc : Nat) : Phase Version :=
  match left with
  | 0 => .returned (.error
      "cas: bootstrap: CAS retries exhausted joining the membership document")
  | left + 1 => .bootPut left inc

def retryMutate (th : Thread) (left : Nat) : Phase Version :=
  match left with
  | 0 => finish th (.error "cas: CAS retries exhausted updating the membership document")
  | left + 1 => .reading left

def Phase.won (data : Document) (ver : Version) : Phase Version → Phase Version
  | .bootPut _ _ => .bootstrapped .founded data ver
  | .bootSet _ _ cur _ => .bootstrapped (bootOf cur) data ver
  | .collecting boot _ _ _ => afterPass boot
  | .writing _ _ (.add _ inc) => .settingInc inc
  | _ => .returned .ok

def Phase.conflict (th : Thread) : Phase Version → Phase Version
  | .bootPut left inc => .bootGet left inc
  | .bootSet left inc _ _ => retryBoot left inc
  | .collecting boot _ _ _ => afterPass boot
  | .writing left _ _ => retryMutate th left
  | _ => .returned .ok

def Phase.failed (th : Thread) (reason : String) : Phase Version → Option (Phase Version)
  | .bootPut _ _ | .bootGet _ _ | .bootSet _ _ _ _ =>
    some (.returned (.error ("cas: bootstrap: " ++ reason)))
  | .collecting boot _ _ _ => some (afterPass boot)
  | .polling => some (.returned .ok)
  | .reading _ => some (finish th (.error ("cas: reading membership document: " ++ reason)))
  | .writing _ _ _ => some (finish th (.error ("cas: writing membership document: " ++ reason)))
  | _ => none

def Phase.got (read : Option (Document × Version)) : Phase Version → Option (Phase Version)
  | .bootGet left inc =>
    match read with
    | none => some (retryBoot left inc)
    | some (cur, ver) => some (.bootSet left inc cur ver)
  | .polling =>
    match read with
    | none => some (.returned .ok)
    | some (d, ver) => some (.observing none d ver)
  | .reading left => some (.editing left read)
  | _ => none

end Phases

def errDisplaced : String :=
  "cas: displaced: a newer process with this node's ID owns the membership row"

section Program

variable {Version : Type}

abbrev State (Version : Type) := Threads Shared (Nat × Thread) (Phase Version)

def loopsIdle (s : State Version) (pid : Nat) : Bool :=
  (s.phase (pid, .renew)).inactive && (s.phase (pid, .poll)).inactive

/-- A call may begin. The loops tick while the process is started, one tick after the other. -/
def callable (proc : Proc) (phase : Phase Version) : Thread → Bool
  | .start | .close => phase.inactive
  | .renew | .poll => phase.inactive && proc.started && !proc.stopped
  | .setRole _ _ =>
    match phase with
    | .idle => true
    | _ => false

def enter (cfg : Config) (pid : Nat) (s : State Version) : Thread → Option (Shared × Phase Version)
  | .start =>
    if (s.object.procs pid).started then
      some (s.object, .returned (.error "cas: Start called twice"))
    else if cfg.self.id = "" then
      some (s.object, .returned (.error "cas: Params.Self.ID is required"))
    else if cfg.self.addr = "" then
      some (s.object, .returned (.error "cas: Params.Self.Addr is required (peers dial it)"))
    else
      some ((s.object.mint (pid, .start)).setProc pid
          fun proc => { proc with selfInc := some s.object.minted.length },
        .bootPut (casAttempts - 1) s.object.minted.length)
  | .renew =>
    if (s.object.procs pid).displaced then some (s.object, .returned (.error errDisplaced))
    else some (s.object, .reading (casAttempts - 1))
  | .poll =>
    if (s.object.procs pid).displaced then some (s.object, .returned .ok)
    else some (s.object, .polling)
  | .setRole _ _ =>
    if (s.object.procs pid).displaced then some (s.object, .returned (.error errDisplaced))
    else some (s.object, .recording)
  | .close =>
    if (s.object.procs pid).closed then
      if loopsIdle s pid then some (s.object, .returned .ok) else none
    else some (s.object.setProc pid fun proc => { proc with closed := true }, .waiting)

def localStep (cfg : Config) (pid : Nat) (s : State Version) (th : Thread) :
    Phase Version → Option (Shared × Phase Version)
  | .entered => enter cfg pid s th
  | .bootstrapped boot d ver =>
    some (s.object.setProc pid fun proc => { proc with roles := bootRoles cfg boot },
      .observing (some boot) d ver)
  | .observing boot d ver =>
    let proc := s.object.procs pid
    let pass := observe cfg proc.roles d proc.observer
    some (s.object.setProc pid fun proc =>
        { proc with observer := pass.1, seen := d :: proc.seen },
      if pass.2 = [] then afterPass boot else .collecting boot pass.2 d ver)
  | .finishing boot =>
    some (s.object.setProc pid fun proc => { proc with started := true },
      .returned (.bootstrapped boot))
  | .recording =>
    match th with
    | .setRole _ want =>
      let proc := s.object.procs pid
      some (s.object.setProc pid fun proc => { proc with roles := want },
        if proc.roles = want ∨ proc.started = false then .returned .ok
        else .reading (casAttempts - 1))
    | _ => none
  | .waiting =>
    let proc := s.object.procs pid
    if loopsIdle s pid then
      some (s.object.setProc pid fun proc => { proc with stopped := true },
        if proc.started ∧ proc.displaced = false then .reading (casAttempts - 1)
        else .returned .ok)
    else none
  | .editing left base =>
    let fresh := s.object.minted.length
    match edit cfg (s.object.procs pid) fresh ((base.map Prod.fst).getD []) th with
    | .skip => some (s.object, .returned .ok)
    | .displaced => some (s.object, .steppingDown)
    | .change (.add roles inc) =>
      some (s.object.mint (pid, th), .writing left base (.add roles inc))
    | .change change => some (s.object, .writing left base change)
  | .settingInc inc =>
    some (s.object.setProc pid fun proc => { proc with selfInc := some inc }, .returned .ok)
  | .steppingDown =>
    some (s.object.setProc pid fun proc => { proc with displaced := true },
      .returned (.error errDisplaced))
  | _ => none

inductive Local (cfg : Config) (pid : Nat) (s : State Version) :
    Thread → Phase Version → Shared → Phase Version → Prop where
  | refused {th : Thread} (message : String) :
      Local cfg pid s th .entered s.object (.returned (.error message))
  | done {th : Thread} (other : th ≠ .start) :
      Local cfg pid s th .entered s.object (.returned .ok)
  | boot (unstarted : (s.object.procs pid).started = false) :
      Local cfg pid s .start .entered
        ((s.object.mint (pid, .start)).setProc pid
          fun proc => { proc with selfInc := some s.object.minted.length })
        (.bootPut (casAttempts - 1) s.object.minted.length)
  | renewing : Local cfg pid s .renew .entered s.object (.reading (casAttempts - 1))
  | polling : Local cfg pid s .poll .entered s.object .polling
  | checked (call : Nat) (want : Role) :
      Local cfg pid s (.setRole call want) .entered s.object .recording
  | closing : Local cfg pid s .close .entered
      (s.object.setProc pid fun proc => { proc with closed := true }) .waiting
  | booted {th : Thread} (boot : Bootstrap) (d : Document) (ver : Version) :
      Local cfg pid s th (.bootstrapped boot d ver)
        (s.object.setProc pid fun proc => { proc with roles := bootRoles cfg boot })
        (.observing (some boot) d ver)
  | observed {th : Thread} (boot : Option Bootstrap) (d : Document) (ver : Version) {next}
      (goes : next = afterPass boot ∨ next = .collecting boot
        (observe cfg (s.object.procs pid).roles d (s.object.procs pid).observer).2 d ver) :
      Local cfg pid s th (.observing boot d ver)
        (s.object.setProc pid fun proc =>
          { proc with
            observer := (observe cfg (s.object.procs pid).roles d
              (s.object.procs pid).observer).1
            seen := d :: proc.seen })
        next
  | finished {th : Thread} (boot : Bootstrap) :
      Local cfg pid s th (.finishing boot)
        (s.object.setProc pid fun proc => { proc with started := true })
        (.returned (.bootstrapped boot))
  | recorded (call : Nat) (want : Role) {next}
      (goes : next = .returned .ok ∧
          ((s.object.procs pid).roles = want ∨ (s.object.procs pid).started = false) ∨
        next = .reading (casAttempts - 1)) :
      Local cfg pid s (.setRole call want) .recording
        (s.object.setProc pid fun proc => { proc with roles := want }) next
  | waited {th : Thread} (idle : loopsIdle s pid = true) {next}
      (goes : next = .returned .ok ∨ next = .reading (casAttempts - 1) ∧
        (s.object.procs pid).started = true ∧ (s.object.procs pid).displaced = false) :
      Local cfg pid s th .waiting
        (s.object.setProc pid fun proc => { proc with stopped := true }) next
  | skipped {th : Thread} (left : Nat) (base : Option (Document × Version))
      (edited : edit cfg (s.object.procs pid) s.object.minted.length
        ((base.map Prod.fst).getD []) th = .skip) :
      Local cfg pid s th (.editing left base) s.object (.returned .ok)
  | displaced {th : Thread} (left : Nat) (base : Option (Document × Version))
      (edited : edit cfg (s.object.procs pid) s.object.minted.length
        ((base.map Prod.fst).getD []) th = .displaced) :
      Local cfg pid s th (.editing left base) s.object .steppingDown
  | added {th : Thread} (left : Nat) (base : Option (Document × Version)) (roles : Role)
      (inc : Nat)
      (edited : edit cfg (s.object.procs pid) s.object.minted.length
        ((base.map Prod.fst).getD []) th = .change (.add roles inc)) :
      Local cfg pid s th (.editing left base) (s.object.mint (pid, th))
        (.writing left base (.add roles inc))
  | changed {th : Thread} (left : Nat) (base : Option (Document × Version)) (change : Change)
      (edited : edit cfg (s.object.procs pid) s.object.minted.length
        ((base.map Prod.fst).getD []) th = .change change)
      (inPlace : ∀ roles inc, change ≠ .add roles inc) :
      Local cfg pid s th (.editing left base) s.object (.writing left base change)
  | adopted {th : Thread} (inc : Nat) :
      Local cfg pid s th (.settingInc inc)
        (s.object.setProc pid fun proc => { proc with selfInc := some inc }) (.returned .ok)
  | steppedDown {th : Thread} :
      Local cfg pid s th .steppingDown
        (s.object.setProc pid fun proc => { proc with displaced := true })
        (.returned (.error errDisplaced))

variable {next : Phase Version} {pid : Nat} {th : Thread} {s : State Version} {o : Shared}

theorem of_enter {cfg : Config} (moved : enter cfg pid s th = some (o, next)) :
    Local cfg pid s th .entered o next := by
  cases th with
  | start =>
    simp only [enter] at moved
    split_ifs at moved with started unnamed unaddressed <;>
      cases moved
    · exact .refused _
    · exact .refused _
    · exact .refused _
    · exact .boot (by simpa using started)
  | renew =>
    simp only [enter] at moved
    split_ifs at moved <;> cases moved
    · exact .refused _
    · exact .renewing
  | poll =>
    simp only [enter] at moved
    split_ifs at moved <;> cases moved
    · exact .done (by simp)
    · exact .polling
  | setRole call want =>
    simp only [enter] at moved
    split_ifs at moved <;> cases moved
    · exact .refused _
    · exact .checked call want
  | close =>
    simp only [enter] at moved
    split_ifs at moved <;> cases moved
    · exact .done (by simp)
    · exact .closing

theorem of_localStep {cfg : Config} {phase : Phase Version}
    (moved : localStep cfg pid s th phase = some (o, next)) : Local cfg pid s th phase o next := by
  cases phase with
  | entered => exact of_enter moved
  | bootstrapped boot d ver =>
    cases moved
    exact .booted boot d ver
  | observing boot d ver =>
    cases moved
    refine .observed boot d ver ?_
    split
    · exact .inl rfl
    · exact .inr rfl
  | finishing boot =>
    cases moved
    exact .finished boot
  | recording =>
    cases th with
    | setRole call want =>
      cases moved
      refine .recorded call want ?_
      split
      case isTrue quiet => exact .inl ⟨rfl, quiet⟩
      case isFalse => exact .inr rfl
    | _ => simp [localStep] at moved
  | waiting =>
    simp only [localStep] at moved
    split_ifs at moved with idle leaves <;>
      cases moved
    · exact .waited idle (.inr ⟨rfl, leaves⟩)
    · exact .waited idle (.inl rfl)
  | editing left base =>
    simp only [localStep] at moved
    split at moved
    case h_1 edited =>
      cases moved
      exact .skipped left base edited
    case h_2 edited =>
      cases moved
      exact .displaced left base edited
    case h_3 roles inc edited =>
      cases moved
      exact .added left base roles inc edited
    case h_4 change inPlace edited =>
      cases moved
      exact .changed left base change edited inPlace
  | settingInc inc =>
    cases moved
    exact .adopted inc
  | steppingDown =>
    cases moved
    exact .steppedDown
  | _ => simp [localStep] at moved

variable [DecidableEq Version]

/-- What a thread's conditional write would store. -/
def Phase.data (cfg : Config) (phase : Phase Version) (change : Change) : Document :=
  (change.apply cfg phase.rows).encode

def program (vs : Versions Document Version) (cfgs : Nat → Config) :
    Threads.Program Shared (Nat × Thread) Event (Phase Version) := fun (pid, th) event s =>
  let phase := s.phase (pid, th)
  let written := fun change =>
    s.object.document.attempt vs (phase.data (cfgs pid) change) (phase.base.map Prod.snd)
  match event with
  | .call =>
    if callable (s.object.procs pid) phase th then some (s.object, .entered) else none
  | .access =>
    match phase.pending with
    | some change =>
      match written change with
      | some later =>
        let data := phase.data (cfgs pid) change
        some ({ s.object with document := later },
          phase.won data (vs.token s.object.document.stored.length data))
      | none => some (s.object, phase.conflict th)
    | none =>
      match phase.got (s.object.document.get vs) with
      | some next => some (s.object, next)
      | none => localStep (cfgs pid) pid s th phase
  | .fail reason => (phase.failed th reason).map fun next => (s.object, next)
  | .lose reason =>
    match phase.pending with
    | some change =>
      match written change with
      | some later =>
        (phase.failed th reason).map fun next => ({ s.object with document := later }, next)
      | none => none
    | none => none

def machine (vs : Versions Document Version) (cfgs : Nat → Config) :
    Machine (State Version) ((Nat × Thread) × Event) := Threads.machine (program vs cfgs)

/-- No document, and no process has been started. -/
def initial : State Version := ⟨⟨.empty, [], fun _ => .new⟩, fun _ => .idle⟩

/-- One step of a thread: it is called, writes the document, loses the answer to its write, finds
the precondition of its write broken, reads the document, fails to access the store, or makes a
local step. -/
inductive Moved (vs : Versions Document Version) (cfgs : Nat → Config) (s : State Version)
    (pid : Nat) (th : Thread) : Event → Shared → Phase Version → Prop where
  | called (ready : callable (s.object.procs pid) (s.phase (pid, th)) th = true) :
      Moved vs cfgs s pid th .call s.object .entered
  | wrote {change : Change} {later : CondObject Document}
      (writes : (s.phase (pid, th)).pending = some change)
      (stored : s.object.document.attempt vs ((s.phase (pid, th)).data (cfgs pid) change)
        ((s.phase (pid, th)).base.map Prod.snd) = some later) :
      Moved vs cfgs s pid th .access { s.object with document := later }
        ((s.phase (pid, th)).won ((s.phase (pid, th)).data (cfgs pid) change)
          (vs.token s.object.document.stored.length ((s.phase (pid, th)).data (cfgs pid) change)))
  | lost {change : Change} {later : CondObject Document} {reason : String}
      {next : Phase Version} (writes : (s.phase (pid, th)).pending = some change)
      (stored : s.object.document.attempt vs ((s.phase (pid, th)).data (cfgs pid) change)
        ((s.phase (pid, th)).base.map Prod.snd) = some later)
      (goes : (s.phase (pid, th)).failed th reason = some next) :
      Moved vs cfgs s pid th (.lose reason) { s.object with document := later } next
  | conflicted {change : Change} (writes : (s.phase (pid, th)).pending = some change) :
      Moved vs cfgs s pid th .access s.object ((s.phase (pid, th)).conflict th)
  | got {next : Phase Version} (quiet : (s.phase (pid, th)).pending = none)
      (goes : (s.phase (pid, th)).got (s.object.document.get vs) = some next) :
      Moved vs cfgs s pid th .access s.object next
  | failed {reason : String} {next : Phase Version}
      (goes : (s.phase (pid, th)).failed th reason = some next) :
      Moved vs cfgs s pid th (.fail reason) s.object next
  | here {o : Shared} {next : Phase Version} (quiet : (s.phase (pid, th)).pending = none)
      (goes : Local (cfgs pid) pid s th (s.phase (pid, th)) o next) :
      Moved vs cfgs s pid th .access o next

theorem of_program {vs : Versions Document Version} {cfgs : Nat → Config} {event : Event}
    (moved : program vs cfgs (pid, th) event s = some (o, next)) :
    Moved vs cfgs s pid th event o next := by
  cases event with
  | call =>
    simp only [program] at moved
    split at moved
    case isTrue ready =>
      cases moved
      exact .called ready
    case isFalse => cases moved
  | access =>
    simp only [program] at moved
    split at moved
    case h_1 change writes =>
      split at moved
      case h_1 later stored =>
        cases moved
        exact .wrote writes stored
      case h_2 =>
        cases moved
        exact .conflicted writes
    case h_2 quiet =>
      split at moved
      case h_1 next goes =>
        cases moved
        exact .got quiet goes
      case h_2 => exact .here quiet (of_localStep moved)
  | fail reason =>
    obtain ⟨next, goes, same⟩ := Option.map_eq_some_iff.mp moved
    cases same
    exact .failed goes
  | lose reason =>
    simp only [program] at moved
    split at moved
    case h_1 change writes =>
      split at moved
      case h_1 later stored =>
        obtain ⟨next, goes, same⟩ := Option.map_eq_some_iff.mp moved
        cases same
        exact .lost writes stored goes
      case h_2 => cases moved
    case h_2 => cases moved

end Program

end Shale.Membership
