import Shale.Foundation.Fallible
import Shale.Reshard.Doubling
import Shale.Reshard.SingleNodeSafety

/-!
# Bisecting one unit, with the calls that may fail

`bisectUnit` of `multibackend_reshard.go` with its error paths: every call on the factory or on a
database may fail, and a bisect that fails leaves behind what it has opened, mounted and copied.
Between any two calls the clients write, and each write is one step that goes to the unit its key
resolves to; while the unit is paused the writes on its keys wait.
-/

namespace Shale.Bisect

open Fallible.Ends

open Function (update update_of_ne update_self)

open SingleNode (State Request copyTarget HoldsAcked)

/-- The two copies of a bisect: while the unit takes writes, and under its pause. -/
inductive Pass where
  | bulk
  | catchUp
deriving DecidableEq

/-- The calls of a bisect on the factory and on the databases. `i` counts the steps of a loop. -/
inductive Site where
  | openChild (child : GenUnit)
  | copyScan (unit : Nat) (pass : Pass)
  | copyNext (unit : Nat) (pass : Pass) (i : Nat)
  | copyPut (unit : Nat) (pass : Pass) (i : Nat)
  | clearScan (child : GenUnit)
  | clearNext (child : GenUnit) (i : Nat)
  | clearDelete (child : GenUnit) (i : Nat)
  | retire (unit : Nat)
deriving DecidableEq

/-- Whether a call is on the factory. -/
def Site.isOpen : Site → Bool
  | .openChild _ => true
  | _ => false

/-- What a reshard meets: the calls that fail, the writes that arrive before each call, and what
the iterator of the first copy yields, over a unit that is being written. -/
structure Env where
  fails : Site → Bool
  traffic : Site → List Request
  live : Nat → List (Bytes × Bytes)

/-- The node, with the mounts that its factory holds open and the calls of the current
`Reshard`. -/
structure Node extends State where
  held : Finset GenUnit
  log : List Site

/-- Why a call on the factory fails. -/
inductive OpenError where
  | failed
  | alreadyOpen
deriving DecidableEq

inductive ReshardError where
  | double (message : String)
  | childUnits (unit : Nat) (message : String)
  | openChild (child : GenUnit) (cause : OpenError)
  | notMounted (unit : GenUnit)
  | copy (unit : GenUnit)
  | catchUpClear (child : GenUnit)
  | catchUp (unit : GenUnit)
deriving DecidableEq

namespace Node

variable (node : Node)

def isMounted (unit : GenUnit) : Bool := (node.mounts.lookup unit).isSome

def closeUnit (unit : GenUnit) : Node := { node with held := node.held.erase unit }

def mountPair (low high : GenUnit) : Node :=
  { node with toState := (node.toState.mountFresh low).mountFresh high }

def record (site : Site) : Node := { node with log := site :: node.log }

def unmount (unit : GenUnit) : Node := { node with mounts := node.mounts.erase unit }

end Node

variable (hash : Bytes → ShardHash) (env : Env)

def serve (request : Request) (node : Node) : Node :=
  let unit := node.gs.resolveGenUnit (hash request.key)
  if request.effect ≠ some [] ∧ node.isMounted unit then
    { node with
      db := update node.db unit ((node.db unit).write request.key request.effect)
      acked := update node.acked request.key request.effect }
  else node

def serveAll (requests : List Request) (node : Node) : Node :=
  requests.foldl (fun node request => serve hash request node) node

def meanwhile (pause : Option Nat) (site : Site) (node : Node) : Node :=
  serveAll hash ((env.traffic site).filter fun request =>
    pause ≠ some (unitForHash (hash request.key) node.gs.count)) node

def call (pause : Option Nat) (site : Site) (err : ReshardError) :
    Fallible Node ReshardError Unit := do
  modify (meanwhile hash env pause site)
  modify (·.record site)
  if env.fails site then throw err else pure ()

def openUnit (child : GenUnit) : Fallible Node ReshardError Unit := do
  call hash env none (.openChild child) (.openChild child .failed)
  let node ← get
  if child ∈ node.held then throw (.openChild child .alreadyOpen)
  else modify fun node => { node with held := insert child node.held }

def putChild (gen k : Nat) (old next : UnitCount) (entry : Bytes × Bytes) (node : Node) : Node :=
  let child : GenUnit := { gen := gen + 1, id := copyTarget hash old next k entry.1 }
  { node with db := update node.db child ((node.db child).put entry.1 entry.2) }

def copyStep (pause : Option Nat) (pass : Pass) (gen k : Nat) (old next : UnitCount)
    (err : ReshardError) (i : Nat) (entry : Bytes × Bytes) : Fallible Node ReshardError Unit := do
  call hash env pause (.copyNext k pass i) err
  call hash env pause (.copyPut k pass i) err
  modify (putChild hash gen k old next entry)

def copyUnitInto (pause : Option Nat) (pass : Pass) (gen k : Nat) (old next : UnitCount)
    (entries : Node → List (Bytes × Bytes)) (err : ReshardError) :
    Fallible Node ReshardError Unit := do
  call hash env pause (.copyScan k pass) err
  let node ← get
  Fallible.forEach (copyStep hash env pause pass gen k old next err) 0 (entries node)
  call hash env pause (.copyNext k pass (entries node).length) err

def deleteKey (child : GenUnit) (key : Bytes) (node : Node) : Node :=
  { node with db := update node.db child ((node.db child).delete key) }

def clearBackend (pause : Option Nat) (child : GenUnit) (err : ReshardError) :
    Fallible Node ReshardError Unit := do
  call hash env pause (.clearScan child) err
  let node ← get
  Fallible.forEach (fun i _ => call hash env pause (.clearNext child i) err) 0
    (node.db child).scan
  call hash env pause (.clearNext child (node.db child).scan.length) err
  Fallible.forEach (fun i key => do
    call hash env pause (.clearDelete child i) err
    modify (deleteKey child key)) 0 ((node.db child).scan.map Prod.fst)

def requireMounted (unit : GenUnit) : Fallible Node ReshardError Unit := do
  let node ← get
  if node.isMounted unit then pure () else throw (.notMounted unit)

def untilPause (gen k : Nat) (old next : UnitCount) (low high : GenUnit) :
    Fallible Node ReshardError Unit := do
  openUnit hash env low
  (openUnit hash env high).undoing (·.closeUnit low)
  modify (·.mountPair low high)
  requireMounted { gen, id := k }
  copyUnitInto hash env none .bulk gen k old next (fun _ => env.live k) (.copy { gen, id := k })

/-- The part of `bisectUnit` under the pause that fills the children again. -/
def refill (gen k : Nat) (old next : UnitCount) (low high : GenUnit) :
    Fallible Node ReshardError Unit := do
  clearBackend hash env (some k) low (.catchUpClear low)
  clearBackend hash env (some k) high (.catchUpClear high)
  copyUnitInto hash env (some k) .catchUp gen k old next
    (fun node => (node.db { gen, id := k }).scan) (.catchUp { gen, id := k })

/-- The flip, still under the pause. -/
def cutOver (k : Nat) (node : Node) : Node := { node with gs := node.gs.cutOverUnit k }

def retire (gen k : Nat) (node : Node) : Node :=
  ((meanwhile hash env none (.retire k) node).unmount { gen, id := k }).closeUnit { gen, id := k }

def bisectUnit (gen k : Nat) (old next : UnitCount) : Fallible Node ReshardError Unit :=
  match childUnits k old with
  | .error message => throw (.childUnits k message)
  | .ok (low, high) => do
      let lowUnit : GenUnit := { gen := gen + 1, id := low }
      let highUnit : GenUnit := { gen := gen + 1, id := high }
      untilPause hash env gen k old next lowUnit highUnit
      refill hash env gen k old next lowUnit highUnit
      modify (cutOver k)
      modify (retire hash env gen k)

/-- Two nodes that differ in their contents and in what they have acked only. -/
structure SameFrame (node after : Node) : Prop where
  gs : after.gs = node.gs
  mounts : after.mounts = node.mounts
  held : after.held = node.held
  log : after.log = node.log

variable {hash env} {node : Node} {request : Request} {gs : GenState} {next : UnitCount}
  {k : Nat} {unit : GenUnit}

variable {after : Node} {pause : Option Nat} {site : Site} {err : ReshardError} {inv : Node → Prop}

theorem SameFrame.trans {mid : Node} (first : SameFrame node mid) (second : SameFrame mid after) :
    SameFrame node after :=
  ⟨second.gs.trans first.gs, second.mounts.trans first.mounts, second.held.trans first.held,
    second.log.trans first.log⟩

theorem serve_cases (hash : Bytes → ShardHash) (request : Request) (node : Node) :
    serve hash request node = node ∨
      serve hash request node = { node with
        db := update node.db (node.gs.resolveGenUnit (hash request.key))
          ((node.db (node.gs.resolveGenUnit (hash request.key))).write request.key request.effect)
        acked := update node.acked request.key request.effect } := by
  unfold serve
  dsimp only
  split
  · exact .inr rfl
  · exact .inl rfl

theorem sameFrame_serve (request : Request) (node : Node) :
    SameFrame node (serve hash request node) := by
  rcases serve_cases hash request node with same | same <;> exact same.symm ▸ ⟨rfl, rfl, rfl, rfl⟩

theorem get_serve_of_ne {key : Bytes} (apart : key ≠ request.key) (unit : GenUnit) :
    ((serve hash request node).db unit).get key = (node.db unit).get key := by
  rcases serve_cases hash request node with same | same
  · rw [same]
  · rw [same]
    dsimp only
    by_cases there : unit = node.gs.resolveGenUnit (hash request.key)
    · rw [there, update_self, Store.get_write_of_ne apart]
    · rw [update_of_ne there]

theorem holdsAcked_serve (holds : HoldsAcked hash node.toState) (request : Request) :
    HoldsAcked hash (serve hash request node).toState := by
  intro key
  by_cases same : key = request.key
  · subst same
    rcases serve_cases hash request node with refused | written
    · rw [refused]
      exact holds _
    · rw [written]
      dsimp only
      rw [update_self, update_self, Store.get_write_self]
  · have acked : (serve hash request node).acked key = node.acked key := by
      rcases serve_cases hash request node with refused | written
      · rw [refused]
      · rw [written]
        exact update_of_ne same _ _
    rw [get_serve_of_ne same, (sameFrame_serve request node).gs, acked]
    exact holds key

section ServeAll

variable (requests : List Request)

theorem sameFrame_serveAll (hash : Bytes → ShardHash) (node : Node) :
    SameFrame node (serveAll hash requests node) := by
  induction requests generalizing node with
  | nil => exact ⟨rfl, rfl, rfl, rfl⟩
  | cons request rest ih => exact (sameFrame_serve request node).trans (ih _)

theorem holdsAcked_serveAll (holds : HoldsAcked hash node.toState) :
    HoldsAcked hash (serveAll hash requests node).toState := by
  induction requests generalizing node with
  | nil => exact holds
  | cons request rest ih => exact ih (holdsAcked_serve holds request)

variable {requests}

theorem db_serveAll_of_ne
    (apart : ∀ request ∈ requests, node.gs.resolveGenUnit (hash request.key) ≠ unit) :
    (serveAll hash requests node).db unit = node.db unit := by
  induction requests generalizing node with
  | nil => rfl
  | cons request rest ih =>
    have first : (serve hash request node).db unit = node.db unit := by
      rcases serve_cases hash request node with same | same
      · rw [same]
      · rw [same]
        exact update_of_ne (Ne.symm (apart request List.mem_cons_self)) _ _
    refine (ih ?_).trans first
    intro later mem
    rw [(sameFrame_serve request node).gs]
    exact apart later (List.mem_cons_of_mem _ mem)

theorem get_serveAll_of_notMem {key : Bytes} (absent : key ∉ requests.map Request.key)
    (unit : GenUnit) :
    ((serveAll hash requests node).db unit).get key = (node.db unit).get key := by
  induction requests generalizing node with
  | nil => rfl
  | cons request rest ih =>
    rw [List.map_cons, List.mem_cons, not_or] at absent
    exact (ih absent.2).trans (get_serve_of_ne absent.1 unit)

end ServeAll

theorem sameFrame_meanwhile (hash : Bytes → ShardHash) (env : Env) (pause : Option Nat)
    (site : Site) (node : Node) : SameFrame node (meanwhile hash env pause site node) :=
  sameFrame_serveAll _ hash node

structure Splitting (gs : GenState) (next : UnitCount) (k : Nat) : Prop where
  entered : gs.nextCount = some next
  doubled : gs.count.double = .ok next
  inRange : k < gs.count.n
  waiting : k ∉ gs.cutOver

namespace Splitting

variable (splitting : Splitting gs next k)

include splitting

theorem twice : next.n = 2 * gs.count.n := UnitCount.n_of_double splitting.doubled

theorem children : childUnits k gs.count = .ok (k, k + gs.count.n) :=
  childUnits_eq splitting.doubled splitting.inRange

theorem db_meanwhile (hash : Bytes → ShardHash) (env : Env) (site : Site) (here : node.gs = gs)
    (unit_mem : unit = ⟨gs.gen, k⟩ ∨
      ∃ id, id % gs.count.n = k ∧ unit = ⟨gs.gen + 1, id⟩) :
    (meanwhile hash env (some k) site node).db unit = node.db unit := by
  subst here
  refine db_serveAll_of_ne ?_
  intro request mem
  obtain ⟨-, admitted⟩ := List.mem_filter.mp mem
  have other : unitForHash (hash request.key) node.gs.count ≠ k := by
    intro same
    simp [same] at admitted
  obtain ⟨parent, child⟩ :=
    SingleNode.resolveGenUnit_ne_of_other splitting.entered splitting.twice other
  rcases unit_mem with rfl | ⟨id, belongs, rfl⟩
  · exact parent
  · exact child id belongs

end Splitting

theorem call_ends {pre : Node → Prop} {ok : Unit → Node → Prop}
    {failed : ReshardError → Node → Prop}
    (good : ∀ node, pre node → env.fails site = false →
      ok () ((meanwhile hash env pause site node).record site))
    (bad : ∀ node, pre node → env.fails site = true →
      failed err ((meanwhile hash env pause site node).record site)) :
    Fallible.Ends pre (call hash env pause site err) ok failed := by
  intro node holds
  unfold call
  cases fault : env.fails site with
  | false => exact good node holds fault
  | true => exact bad node holds fault

theorem call_keeps
    (served : ∀ site node, inv node → inv ((meanwhile hash env pause site node).record site)) :
    Fallible.Keeps inv inv (call hash env pause site err) :=
  call_ends (fun node holds _ => served site node holds)
    (fun node holds _ => served site node holds)

section OfCalls

variable {pause : Option Nat} {err : ReshardError} {inv failed : Node → Prop}
  (calls : ∀ site err, site.isOpen = false →
    Fallible.Keeps inv failed (call hash env pause site err))

include calls

theorem copyUnitInto_of_calls {pass : Pass} {gen : Nat} {old : UnitCount}
    {entries : Node → List (Bytes × Bytes)}
    (written : ∀ entry node, inv node → inv (putChild hash gen k old next entry node)) :
    Fallible.Keeps inv failed (copyUnitInto hash env pause pass gen k old next entries err) := by
  refine bind (calls _ _ rfl) fun _ => Fallible.Keeps.get fun node => ?_
  refine bind (Fallible.Keeps.forEach (fun i entry => ?_) 0 _) fun _ =>
    calls _ _ rfl
  refine bind (calls _ _ rfl) fun _ => ?_
  exact bind (calls _ _ rfl) fun _ => Fallible.Keeps.modifying (written entry)

theorem clearBackend_of_calls {child : GenUnit}
    (written : ∀ key node, inv node → inv (deleteKey child key node)) :
    Fallible.Keeps inv failed (clearBackend hash env pause child err) := by
  refine bind (calls _ _ rfl) fun _ => Fallible.Keeps.get fun node => ?_
  refine bind (Fallible.Keeps.forEach (fun i _ => calls _ _ rfl) 0 _) fun _ => ?_
  refine bind (calls _ _ rfl) fun _ => Fallible.Keeps.forEach (fun i key => ?_) 0 _
  exact bind (calls _ _ rfl) fun _ => Fallible.Keeps.modifying (written key)

end OfCalls

theorem refill_of_calls {failed : Node → Prop} {gen : Nat} {old : UnitCount} {low high : GenUnit}
    (calls : ∀ site err, site.isOpen = false →
      Fallible.Keeps inv failed (call hash env (some k) site err))
    (written : ∀ (node : Node) db, inv node → inv { node with db }) :
    Fallible.Keeps inv failed (refill hash env gen k old next low high) := by
  refine bind (clearBackend_of_calls calls fun _ node => written node _) fun _ => ?_
  refine bind (clearBackend_of_calls calls fun _ node => written node _) fun _ => ?_
  exact copyUnitInto_of_calls calls fun _ node => written node _

def StoresOnly (unit : GenUnit) (keys : List Bytes) (node : Node) : Prop :=
  ∀ key, key ∈ keys ∨ (node.db unit).get key = none

/-- The copy of a frozen unit: the entries still to come, laid over what a child holds, are the
keys of the unit that go to the child. -/
def Filling (hash : Bytes → ShardHash) (gs : GenState) (next : UnitCount) (k : Nat)
    (parent : Store Bytes) (rest : List (Bytes × Bytes)) (node : Node) : Prop :=
  ∀ id, id = k ∨ id = k + gs.count.n → ∀ key,
    if copyTarget hash gs.count next k key = id then
      (rest.lookup key).or ((node.db { gen := gs.gen + 1, id }).get key) = parent.get key
    else (node.db { gen := gs.gen + 1, id }).get key = none

theorem mod_of_child {id : Nat} (inRange : k < gs.count.n) (child : id = k ∨ id = k + gs.count.n) :
    id % gs.count.n = k := by
  rcases child with rfl | rfl
  · exact Nat.mod_eq_of_lt inRange
  · rw [Nat.add_mod_right, Nat.mod_eq_of_lt inRange]

theorem copyTarget_child (hash : Bytes → ShardHash) (old next : UnitCount) (k : Nat) (key : Bytes) :
    copyTarget hash old next k key = k ∨ copyTarget hash old next k key = k + old.n := by
  unfold copyTarget
  split
  · exact .inl rfl
  · exact .inr rfl

namespace Filling

variable {parent : Store Bytes} {rest : List (Bytes × Bytes)}

theorem start (empty : ∀ id, id = k ∨ id = k + gs.count.n →
      StoresOnly ⟨gs.gen + 1, id⟩ [] node) : Filling hash gs next k parent parent.scan node := by
  intro id child key
  have none := (empty id child key).resolve_left (by simp)
  split
  · rw [none, Option.or_none, Store.lookup_scan]
  · exact none

theorem congr {after : Node} (filling : Filling hash gs next k parent rest node)
    (inRange : k < gs.count.n) (same : ∀ id, id % gs.count.n = k →
      after.db ⟨gs.gen + 1, id⟩ = node.db ⟨gs.gen + 1, id⟩) :
    Filling hash gs next k parent rest after := by
  intro id child key
  rw [same id (mod_of_child inRange child)]
  exact filling id child key

theorem put {entry : Bytes × Bytes} (distinct : ((entry :: rest).map Prod.fst).Nodup)
    (filling : Filling hash gs next k parent (entry :: rest) node) :
    Filling hash gs next k parent rest (putChild hash gs.gen k gs.count next entry node) := by
  intro id child key
  have before := filling id child key
  split at before
  case isTrue target =>
    rw [if_pos target, ← before]
    refine Store.or_get_update_put node.db distinct ?_
    rintro rfl
    rw [target]
  case isFalse target =>
    rw [if_neg target, ← before]
    unfold putChild
    dsimp only
    by_cases there : id = copyTarget hash gs.count next k entry.1
    · have other : key ≠ entry.1 := fun same => target (same ▸ there.symm)
      rw [there, update_self, Store.get_put_of_ne other]
    · rw [update_of_ne (by simpa using there)]

theorem get_eq (filling : Filling hash gs next k parent [] node) {id : Nat}
    (child : id = k ∨ id = k + gs.count.n) (key : Bytes) :
    (node.db ⟨gs.gen + 1, id⟩).get key =
      if copyTarget hash gs.count next k key = id then parent.get key else none := by
  have := filling id child key
  split at this
  · case isTrue target =>
      rw [if_pos target, ← this, List.lookup_nil, Option.none_or]
  · case isFalse target =>
      rw [if_neg target, this]

end Filling

section Refill

variable (splitting : Splitting gs next k) {inv : Node → Prop} {err : ReshardError}
  {parent : Store Bytes} (here : ∀ node, inv node → node.gs = gs)
  (served : ∀ site node, inv node → inv ((meanwhile hash env (some k) site node).record site))

include splitting here served

theorem call_ends_children {said : Node → Prop} (site : Site)
    (children : ∀ node after : Node, said node →
      (∀ id, id % gs.count.n = k →
        after.db ⟨gs.gen + 1, id⟩ = node.db ⟨gs.gen + 1, id⟩) → said after) :
    Fallible.Ends (fun node => inv node ∧ said node) (call hash env (some k) site err)
      (fun _ node => inv node ∧ said node) (fun _ => inv) := by
  refine call_ends (fun node holds _ => ⟨served site node holds.1, ?_⟩)
    fun node holds _ => served site node holds.1
  refine children node _ holds.2 fun id belongs => ?_
  exact splitting.db_meanwhile hash env site (here node holds.1) (.inr ⟨id, belongs, rfl⟩)

theorem clearBackend_ends {id : Nat} (belongs : id % gs.count.n = k)
    (written : ∀ store node, inv node →
      inv { node with db := update node.db ⟨gs.gen + 1, id⟩ store }) :
    Fallible.Ends inv (clearBackend hash env (some k) ⟨gs.gen + 1, id⟩ err)
      (fun _ node => inv node ∧ StoresOnly ⟨gs.gen + 1, id⟩ [] node)
      (fun _ => inv) := by
  have listed : ∀ keys site err,
      Fallible.Ends (fun node => inv node ∧ StoresOnly ⟨gs.gen + 1, id⟩ keys node)
        (call hash env (some k) site err)
        (fun _ node => inv node ∧ StoresOnly ⟨gs.gen + 1, id⟩ keys node)
        (fun _ => inv) := by
    intro keys site err
    refine call_ends_children splitting here served site fun node after stored same key => ?_
    rw [same id belongs]
    exact stored key
  refine bind (call_keeps served) fun _ => get fun node holds => ?_
  have start : StoresOnly ⟨gs.gen + 1, id⟩
      ((node.db ⟨gs.gen + 1, id⟩).scan.map Prod.fst) node := by
    intro key
    cases stored : (node.db ⟨gs.gen + 1, id⟩).get key with
    | none => exact .inr rfl
    | some value => exact .inl (List.mem_map.mpr ⟨_, Store.mem_scan.mpr stored, rfl⟩)
  have scanned := forEach
    (fun _ node' => inv node' ∧ StoresOnly ⟨gs.gen + 1, id⟩
      ((node.db ⟨gs.gen + 1, id⟩).scan.map Prod.fst) node')
    (fun i (_ : Bytes × Bytes) _ => listed _ (.clearNext ⟨gs.gen + 1, id⟩ i) err) 0
    (node.db ⟨gs.gen + 1, id⟩).scan
  refine bind (scanned.conseq (by rintro _ rfl; exact ⟨holds, start⟩)
    (fun _ _ kept => kept) fun _ _ kept => kept) fun _ => ?_
  refine bind (listed _ _ _) fun _ => ?_
  refine forEach (fun keys node => inv node ∧ StoresOnly _ keys node) ?_ 0 _
  intro i key rest
  refine bind (listed _ _ _) fun _ => modifying _ ?_
  rintro node ⟨kept, left⟩
  refine ⟨written _ node kept, fun other => ?_⟩
  change _ ∨ ((update node.db _ _) _).get other = none
  rw [update_self]
  by_cases same : other = key
  · exact .inr (same ▸ Store.get_delete_self)
  · rw [Store.get_delete_of_ne same]
    exact (left other).imp_left fun member => (List.mem_cons.mp member).resolve_left same

section

variable (frozen : ∀ node, inv node → node.db ⟨gs.gen, k⟩ = parent)
  (written : ∀ id store node, id = k ∨ id = k + gs.count.n → inv node →
    inv { node with db := update node.db ⟨gs.gen + 1, id⟩ store })
include frozen written

theorem copyUnitInto_ends :
    Fallible.Ends
      (fun node => inv node ∧ ∀ id, id = k ∨ id = k + gs.count.n →
        StoresOnly ⟨gs.gen + 1, id⟩ [] node)
      (copyUnitInto hash env (some k) .catchUp gs.gen k gs.count next
        (fun node => (node.db ⟨gs.gen, k⟩).scan) err)
      (fun _ node => inv node ∧ Filling hash gs next k parent [] node) (fun _ => inv) := by
  have filling : ∀ rest site err,
      Fallible.Ends (fun node => inv node ∧ (rest.map Prod.fst).Nodup ∧
          Filling hash gs next k parent rest node)
        (call hash env (some k) site err)
        (fun _ node => inv node ∧ (rest.map Prod.fst).Nodup ∧
          Filling hash gs next k parent rest node)
        (fun _ => inv) := by
    intro rest site err
    refine call_ends_children splitting here served site fun node after said same => ?_
    exact ⟨said.1, said.2.congr splitting.inRange same⟩
  refine bind (call_ends_children splitting here served _ ?_) fun _ => ?_
  · intro node after empty same id child key
    rw [same id (mod_of_child splitting.inRange child)]
    exact empty id child key
  refine get fun node holds => ?_
  dsimp only
  rw [frozen node holds.1]
  have stepped : ∀ i entry rest,
      Fallible.Ends
        (fun node => inv node ∧ ((entry :: rest).map Prod.fst).Nodup ∧
          Filling hash gs next k parent (entry :: rest) node)
        (copyStep hash env (some k) .catchUp gs.gen k gs.count next err i entry)
        (fun _ node => inv node ∧ (rest.map Prod.fst).Nodup ∧
          Filling hash gs next k parent rest node)
        (fun _ => inv) := by
    intro i entry rest
    refine bind (filling _ _ _) fun _ => bind (filling _ _ _) fun _ =>
      modifying _ ?_
    rintro node ⟨kept, distinct, left⟩
    exact ⟨written _ _ node (copyTarget_child hash _ _ _ _) kept, (List.nodup_cons.mp distinct).2,
      left.put distinct⟩
  have looped := forEach (fun rest node => inv node ∧ (rest.map Prod.fst).Nodup ∧
    Filling hash gs next k parent rest node) stepped 0 parent.scan
  refine bind (looped.conseq ?_ (fun _ _ kept => kept) fun _ _ kept => kept)
    fun _ => (filling [] _ _).conseq (fun _ kept => kept) (fun _ _ kept => ⟨kept.1, kept.2.2⟩)
      fun _ _ kept => kept
  rintro _ rfl
  exact ⟨holds.1, parent.nodup_scan, .start holds.2⟩

theorem refill_ends :
    Fallible.Ends inv
      (refill hash env gs.gen k gs.count next ⟨gs.gen + 1, k⟩ ⟨gs.gen + 1, k + gs.count.n⟩)
      (fun _ node => inv node ∧ Filling hash gs next k parent [] node) (fun _ => inv) := by
  have low := mod_of_child splitting.inRange (.inl rfl)
  have high := mod_of_child splitting.inRange (.inr rfl)
  refine bind (clearBackend_ends splitting here served low
    fun store node => written k store node (.inl rfl)) fun _ => ?_
  -- clearing the high child leaves the low one empty
  have cleared : Fallible.Ends
      (fun node => inv node ∧ StoresOnly ⟨gs.gen + 1, k⟩ [] node)
      (clearBackend hash env (some k) ⟨gs.gen + 1, k + gs.count.n⟩
        (.catchUpClear ⟨gs.gen + 1, k + gs.count.n⟩))
      (fun _ node => (inv node ∧ StoresOnly ⟨gs.gen + 1, k⟩ [] node) ∧
        StoresOnly ⟨gs.gen + 1, k + gs.count.n⟩ [] node)
      (fun _ node => inv node ∧ StoresOnly ⟨gs.gen + 1, k⟩ [] node) := by
    refine clearBackend_ends splitting (fun node holds => here node holds.1) ?_ high ?_
    · rintro site node ⟨kept, empty⟩
      refine ⟨served site node kept, fun key => ?_⟩
      change _ ∨ ((meanwhile hash env (some k) site node).db _).get key = none
      rw [splitting.db_meanwhile hash env site (here node kept) (.inr ⟨k, low, rfl⟩)]
      exact empty key
    · rintro store node ⟨kept, empty⟩
      refine ⟨written _ store node (.inr rfl) kept, fun key => ?_⟩
      have apart : (⟨gs.gen + 1, k⟩ : GenUnit) ≠
          ⟨gs.gen + 1, k + gs.count.n⟩ := by
        have := gs.count.pos
        simp only [ne_eq, GenUnit.mk.injEq, true_and]
        omega
      change _ ∨ ((update node.db _ _) _).get key = none
      rw [update_of_ne apart]
      exact empty key
  refine bind (cleared.conseq (fun _ kept => kept) (fun _ _ kept => kept)
    fun _ _ kept => kept.1) fun _ => ?_
  refine (copyUnitInto_ends splitting here served frozen written).conseq ?_ (fun _ _ kept => kept)
    fun _ _ kept => kept
  rintro node ⟨⟨kept, emptyLow⟩, emptyHigh⟩
  refine ⟨kept, fun id child => ?_⟩
  rcases child with rfl | rfl
  · exact emptyLow
  · exact emptyHigh

end

end Refill

theorem refill_fills (splitting : Splitting gs next k) {parent : Store Bytes} :
    Fallible.Ends (fun node => node.gs = gs ∧ node.db ⟨gs.gen, k⟩ = parent)
      (refill hash env gs.gen k gs.count next ⟨gs.gen + 1, k⟩
        ⟨gs.gen + 1, k + gs.count.n⟩)
      (fun _ node => (node.gs = gs ∧ node.db ⟨gs.gen, k⟩ = parent) ∧
        Filling hash gs next k parent [] node)
      (fun _ node => node.gs = gs ∧ node.db ⟨gs.gen, k⟩ = parent) := by
  refine refill_ends splitting (fun _ holds => holds.1) ?_ (fun _ holds => holds.2) ?_
  · rintro site node ⟨here, frozen⟩
    refine ⟨(sameFrame_meanwhile hash env (some k) site node).gs.trans here, ?_⟩
    exact (splitting.db_meanwhile hash env site here (.inl rfl)).trans frozen
  · rintro id store node - ⟨here, frozen⟩
    refine ⟨here, Eq.trans (update_of_ne ?_ _ _) frozen⟩
    simp

theorem openUnit_keeps {child : GenUnit}
    (served : ∀ site node, inv node → inv ((meanwhile hash env none site node).record site))
    (opened : ∀ node, inv node → inv { node with held := insert child node.held }) :
    Fallible.Keeps inv inv (openUnit hash env child) := by
  refine bind (call_keeps served) fun _ => Fallible.Keeps.get fun node => ?_
  split
  · exact throw _ fun _ kept => kept
  · exact modifying _ opened

theorem untilPause_keeps_gs {gen : Nat} {old : UnitCount} {low high : GenUnit} :
    Fallible.Keeps (fun node => node.gs = gs) (fun node => node.gs = gs)
      (untilPause hash env gen k old next low high) := by
  have served : ∀ site (node : Node), node.gs = gs →
      ((meanwhile hash env none site node).record site).gs = gs :=
    fun site node here => (sameFrame_meanwhile hash env none site node).gs.trans here
  refine bind (openUnit_keeps served fun _ here => here) fun _ => ?_
  refine bind (undoing (openUnit_keeps served fun _ here => here))
    fun _ => ?_
  refine bind (Fallible.Keeps.modifying fun _ here => here) fun _ => ?_
  refine bind (Fallible.Keeps.get fun node => ?_) fun _ =>
    copyUnitInto_of_calls (fun _ _ _ => call_keeps served) fun _ _ here => here
  split
  · exact pure _ fun _ here => here
  · exact throw _ fun _ here => here

theorem bisectUnit_ok (splitting : Splitting gs next k)
    (ended : (bisectUnit hash env gs.gen k gs.count next).exec node = (.ok (), after)) :
    ∃ frozen filled,
      (untilPause hash env gs.gen k gs.count next ⟨gs.gen + 1, k⟩
        ⟨gs.gen + 1, k + gs.count.n⟩).exec node = (.ok (), frozen) ∧
      (refill hash env gs.gen k gs.count next ⟨gs.gen + 1, k⟩
        ⟨gs.gen + 1, k + gs.count.n⟩).exec frozen = (.ok (), filled) ∧
      after = retire hash env gs.gen k (cutOver k filled) := by
  unfold bisectUnit at ended
  rw [splitting.children] at ended
  obtain ⟨_, frozen, first, ended⟩ := Fallible.exec_bind_ok.mp ended
  obtain ⟨_, filled, second, ended⟩ := Fallible.exec_bind_ok.mp ended
  obtain ⟨_, flipped, third, ended⟩ := Fallible.exec_bind_ok.mp ended
  cases third
  cases ended
  exact ⟨frozen, filled, first, second, rfl⟩

/-- **A bisect is an exact partition.** If `bisectUnit` returns no error, the children hold exactly
what the unit held in `frozen`, when its pause was taken, each key in the child that it resolves to
from then on; but for the keys that clients have written after the pause. -/
theorem bisect_partition (hash : Bytes → ShardHash) (env : Env) (next : UnitCount) (k : Nat)
    (node after : Node) (splitting : Splitting node.gs next k)
    (ended : (bisectUnit hash env node.gs.gen k node.gs.count next).exec node =
      (.ok (), after)) :
    ∃ frozen,
      (untilPause hash env node.gs.gen k node.gs.count next { gen := node.gs.gen + 1, id := k }
        { gen := node.gs.gen + 1, id := k + node.gs.count.n }).exec node = (.ok (), frozen) ∧
      ∀ key, key ∉ (env.traffic (.retire k)).map Request.key →
        (∀ value,
          ((after.db { gen := node.gs.gen + 1, id := k }).get key = some value ∨
            (after.db { gen := node.gs.gen + 1, id := k + node.gs.count.n }).get key =
              some value) ↔
          (frozen.db { gen := node.gs.gen, id := k }).get key = some value) ∧
        ((after.db { gen := node.gs.gen + 1, id := k }).get key = none ∨
          (after.db { gen := node.gs.gen + 1, id := k + node.gs.count.n }).get key = none) ∧
        (unitForHash (hash key) node.gs.count = k →
          (after.gs.resolveGenUnit (hash key) = { gen := node.gs.gen + 1, id := k } ∨
            after.gs.resolveGenUnit (hash key) =
              { gen := node.gs.gen + 1, id := k + node.gs.count.n }) ∧
          (after.db (after.gs.resolveGenUnit (hash key))).get key =
            (frozen.db { gen := node.gs.gen, id := k }).get key) := by
  obtain ⟨frozen, filled, first, second, rfl⟩ := bisectUnit_ok splitting ended
  have here : frozen.gs = node.gs := untilPause_keeps_gs.of_ok rfl first
  refine ⟨frozen, first, fun key unwritten => ?_⟩
  obtain ⟨⟨same, -⟩, filling⟩ := (refill_fills splitting).of_ok ⟨here, rfl⟩ second
  have kept : ∀ unit, ((retire hash env node.gs.gen k (cutOver k filled)).db unit).get key =
      (filled.db unit).get key := by
    refine get_serveAll_of_notMem fun member => unwritten ?_
    obtain ⟨request, admitted, named⟩ := List.mem_map.mp member
    exact List.mem_map.mpr ⟨request, (List.mem_filter.mp admitted).1, named⟩
  have routed : (retire hash env node.gs.gen k (cutOver k filled)).gs =
      node.gs.cutOverUnit k := by
    refine ((sameFrame_meanwhile hash env none (.retire k) (cutOver k filled)).gs).trans ?_
    exact congrArg (·.cutOverUnit k) same
  have low := filling.get_eq (.inl rfl) key
  have high := filling.get_eq (.inr rfl) key
  have apart : k ≠ k + node.gs.count.n := by
    have := node.gs.count.pos
    omega
  have target := copyTarget_child hash node.gs.count next k key
  rw [kept, kept, low, high]
  refine ⟨fun value => ?_, ?_, fun own => ?_⟩
  · rcases target with there | there
    · simp [there]
    · simp [there]
  · rcases target with there | there
    · exact .inr (if_neg fun same => apart (there.symm.trans same))
    · exact .inl (if_neg fun same => apart (same.symm.trans there))
  · have moved : unitForHash (hash key) (node.gs.cutOverUnit k).count ∈
        (node.gs.cutOverUnit k).cutOver := own.symm ▸ Finset.mem_insert_self _ _
    rw [routed, GenState.resolveGenUnit_next moved splitting.entered, kept]
    have there := SingleNode.copyTarget_eq splitting.twice own
    rw [← there]
    refine ⟨target.imp (congrArg (GenUnit.mk _)) (congrArg (GenUnit.mk _)), ?_⟩
    exact (filling.get_eq target key).trans (if_pos rfl)

def splittingNode : Node where
  gs := ⟨0, .one, some .two, ∅⟩
  db := fun unit =>
    if unit = ⟨0, 0⟩ then Store.put (Store.put ∅ [0] [5]) [1] [6] else Store.put ∅ [7] [7]
  mounts := AList.insert ⟨0, 0⟩ 0 ∅
  handles := 1
  calls := []
  reshard := .idle
  acked := fun _ => none
  held := {⟨0, 0⟩}
  log := []

def deletingEnv : Env where
  fails := fun _ => false
  traffic := fun site => if site = .copyNext 0 .bulk 1 then [⟨[0], none⟩] else []
  live := fun _ => [([0], [5])]

theorem bisect_partition_deleted :
    ∃ frozen, (untilPause SingleNode.firstByte deletingEnv 0 0 .one .two ⟨1, 0⟩ ⟨1, 1⟩).exec
        splittingNode = (.ok (), frozen) ∧
      ∀ value, ((((bisectUnit SingleNode.firstByte deletingEnv 0 0 .one .two).exec
            splittingNode).2.db ⟨1, 0⟩).get [0] = some value ∨
          (((bisectUnit SingleNode.firstByte deletingEnv 0 0 .one .two).exec
            splittingNode).2.db ⟨1, 1⟩).get [0] = some value) ↔
        (frozen.db ⟨0, 0⟩).get [0] = some value := by
  obtain ⟨frozen, paused, exact⟩ := bisect_partition SingleNode.firstByte deletingEnv .two 0
    splittingNode _ ⟨rfl, by decide, by decide, by decide⟩ (Prod.ext (by decide) rfl)
  exact ⟨frozen, paused, (exact [0] (by decide)).1⟩

end Shale.Bisect
