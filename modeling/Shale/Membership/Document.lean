import Mathlib.Data.List.Sort
import Mathlib.Data.String.Basic

/-!
# The membership document

All coordination state of a cluster is one document in a conditional store: one row for each
member, found by its ID. The document is stored with its rows sorted by ID; the encoding itself
is taken to be lossless. A lease counter is a natural number here, and an incarnation nonce is
the number of the minting that made it.
-/

namespace Shale.Membership

open List

abbrev Role := BitVec 8

def Role.joining : Role := 1#8

def Role.draining : Role := 2#8

def Role.has (roles want : Role) : Bool := roles &&& want == want

def Role.without (roles role : Role) : Role := roles &&& ~~~role

theorem Role.has_without (roles : Role) : (roles.without .joining).has .joining = false := by
  revert roles
  decide

structure Node where
  id : String
  addr : String
deriving DecidableEq

structure Member where
  node : Node
  roles : Role
  declaredUnitCount : Nat
deriving DecidableEq

/-- One member's row. `inc` is minted whenever the row is created, and kept by every edit. -/
structure DocRow where
  id : String
  addr : String
  roles : Role
  declaredUnitCount : Nat
  leaseGen : Nat
  inc : Nat
deriving DecidableEq

def DocRow.member (row : DocRow) : Member := ⟨⟨row.id, row.addr⟩, row.roles, row.declaredUnitCount⟩

abbrev Document := List DocRow

namespace Document

def encode (d : Document) : Document := d.insertionSort fun left right => left.id ≤ right.id

def find (d : Document) (id : String) : Option DocRow := d.find? fun row => row.id = id

def editRow (d : Document) (id : String) (edit : DocRow → DocRow) : Document :=
  match d with
  | [] => []
  | row :: rest => if row.id = id then edit row :: rest else row :: editRow rest id edit

def upsert (d : Document) (row : DocRow) : Document :=
  match d.find row.id with
  | some old =>
    d.editRow row.id fun _ =>
      if row.leaseGen ≤ old.leaseGen then { row with leaseGen := old.leaseGen + 1 } else row
  | none => d ++ [row]

def remove (d : Document) (id : String) : Document := d.eraseP fun row => row.id = id

def dropIds (d : Document) (ids : List String) : Document := d.filter fun row => row.id ∉ ids

def Unique (d : Document) : Prop := (d.map DocRow.id).Nodup

instance (d : Document) : Decidable d.Unique := inferInstanceAs (Decidable (List.Nodup _))

variable {d d' : Document} {id other : String} {row : DocRow} {edit : DocRow → DocRow}

@[simp] theorem unique_nil : Unique [] := nodup_nil

theorem of_find (found : d.find id = some row) : row ∈ d ∧ row.id = id :=
  ⟨mem_of_find?_eq_some found, by simpa using List.find?_some found⟩

theorem find_eq_none_iff : d.find id = none ↔ ∀ row ∈ d, row.id ≠ id := by
  simp [find, List.find?_eq_none]

theorem find_cons (row : DocRow) (d : Document) (id : String) :
    find (row :: d) id = if row.id = id then some row else d.find id := by
  by_cases same : row.id = id <;> simp [find, same]

theorem unique_cons : Unique (row :: d) ↔ (∀ other ∈ d, other.id ≠ row.id) ∧ d.Unique := by
  simp [Unique, nodup_cons]

theorem Unique.find_eq_some_iff (unique : d.Unique) :
    d.find id = some row ↔ row ∈ d ∧ row.id = id := by
  refine ⟨of_find, fun ⟨mem, named⟩ => ?_⟩
  cases found : d.find id with
  | none => exact absurd named (find_eq_none_iff.mp found row mem)
  | some held =>
    obtain ⟨present, same⟩ := of_find found
    rw [inj_on_of_nodup_map unique present mem (same.trans named.symm)]

theorem Unique.find_of_mem (unique : d.Unique) (mem : row ∈ d) : d.find row.id = some row :=
  unique.find_eq_some_iff.mpr ⟨mem, rfl⟩

theorem Unique.of_perm (unique : d.Unique) (same : d.Perm d') : d'.Unique :=
  (same.map DocRow.id).nodup_iff.mp unique

theorem Unique.find_of_perm (unique : d.Unique) (same : d.Perm d') (id : String) :
    d'.find id = d.find id := by
  apply Option.ext
  intro row
  rw [unique.find_eq_some_iff, (unique.of_perm same).find_eq_some_iff, same.mem_iff]

theorem encode_perm (d : Document) : d.encode.Perm d := perm_insertionSort _ _

theorem Unique.encode (unique : d.Unique) : d.encode.Unique :=
  unique.of_perm d.encode_perm.symm

theorem Unique.find_encode (unique : d.Unique) (id : String) : d.encode.find id = d.find id :=
  unique.find_of_perm d.encode_perm.symm id

section

variable (keeps : ∀ row, d.find id = some row → (edit row).id = row.id)
include keeps

theorem map_id_editRow :
    (d.editRow id edit).map DocRow.id = d.map DocRow.id := by
  induction d with
  | nil => rfl
  | cons first rest ih =>
    rw [editRow]
    split
    case isTrue same =>
      have kept := keeps first (by rw [find_cons, if_pos same])
      simp [kept]
    case isFalse apart =>
      have kept := ih fun row found => keeps row (by rw [find_cons, if_neg apart, found])
      simp [kept]

theorem find_editRow (other : String) :
    (d.editRow id edit).find other = if other = id then (d.find id).map edit else d.find other := by
  induction d with
  | nil => simp [editRow, find]
  | cons first rest ih =>
    rw [editRow]
    split
    case isTrue same =>
      have kept := keeps first (by rw [find_cons, if_pos same])
      simp only [find_cons, kept, same, if_true]
      by_cases asked : other = id
      · simp [asked]
      · simp [asked, Ne.symm asked]
    case isFalse apart =>
      have kept := ih fun row found => keeps row (by rw [find_cons, if_neg apart, found])
      simp only [find_cons, kept, apart, if_false]
      by_cases asked : other = id
      · subst asked
        simp [apart]
      · simp [asked]

end

def upserted (d : Document) (row : DocRow) : DocRow :=
  match d.find row.id with
  | some old =>
    if row.leaseGen ≤ old.leaseGen then { row with leaseGen := old.leaseGen + 1 } else row
  | none => row

@[simp] theorem upserted_inc (d : Document) (row : DocRow) : (d.upserted row).inc = row.inc := by
  unfold upserted
  split
  · split <;> rfl
  · rfl

@[simp] theorem upserted_roles (d : Document) (row : DocRow) :
    (d.upserted row).roles = row.roles := by
  unfold upserted
  split
  · split <;> rfl
  · rfl

theorem find_upsert (d : Document) (row : DocRow) (other : String) :
    (d.upsert row).find other = if other = row.id then some (d.upserted row) else d.find other := by
  unfold upsert upserted
  cases found : d.find row.id with
  | none =>
    simp only [find, List.find?_append] at found ⊢
    by_cases asked : other = row.id
    · subst asked
      simp [found]
    · simp [asked, Ne.symm asked]
  | some old =>
    have named := (of_find found).2
    rw [find_editRow]
    · simp [found]
    · intro held again
      rw [found, Option.some.injEq] at again
      subst again
      split <;> simp [named]

section

variable (unique : d.Unique)
include unique

theorem Unique.upsert (row : DocRow) : (d.upsert row).Unique := by
  unfold Document.upsert
  cases found : d.find row.id with
  | none =>
    have absent := find_eq_none_iff.mp found
    simp only [Unique, map_append, map_cons, map_nil]
    refine nodup_append.mpr ⟨unique, by simp, ?_⟩
    intro id listed other single
    obtain ⟨held, mem, rfl⟩ := mem_map.mp listed
    rw [mem_singleton.mp single]
    exact absent held mem
  | some old =>
    have named := (of_find found).2
    rw [Unique, map_id_editRow]
    · exact unique
    · intro held again
      rw [found, Option.some.injEq] at again
      subst again
      split <;> simp [named]

theorem Unique.editRow (keeps : ∀ row, (edit row).id = row.id) (id : String) :
    (d.editRow id edit).Unique := by
  rw [Unique, map_id_editRow fun row _ => keeps row]
  exact unique

theorem Unique.remove (id : String) : (d.remove id).Unique :=
  List.Nodup.sublist (eraseP_sublist.map _) unique

theorem Unique.find_remove (id other : String) :
    (d.remove id).find other = if other = id then none else d.find other := by
  induction d with
  | nil => simp [Document.remove, find]
  | cons first rest ih =>
    obtain ⟨apart, unique⟩ := unique_cons.mp unique
    rw [Document.remove, eraseP_cons]
    by_cases same : first.id = id
    · subst same
      simp only [decide_true, cond_true, find_cons]
      by_cases asked : other = first.id
      · subst asked
        simpa using find_eq_none_iff.mpr apart
      · simp [asked, Ne.symm asked]
    · simp only [same, decide_false, cond_false, find_cons]
      rw [show rest.eraseP (fun row => decide (row.id = id)) = Document.remove rest id from rfl,
        ih unique]
      by_cases asked : other = id
      · subst asked
        simp [same]
      · simp [asked]

theorem Unique.dropIds (ids : List String) : (d.dropIds ids).Unique :=
  List.Nodup.sublist (filter_sublist.map _) unique

theorem Unique.find_dropIds (ids : List String) (id : String) :
    (d.dropIds ids).find id = if id ∈ ids then none else d.find id := by
  apply Option.ext
  intro row
  rw [(unique.dropIds ids).find_eq_some_iff]
  simp only [Document.dropIds, mem_filter, decide_eq_true_eq]
  split
  case isTrue listed =>
    simp only [reduceCtorEq, iff_false, not_and]
    rintro ⟨-, kept⟩ rfl
    exact kept listed
  case isFalse kept =>
    rw [unique.find_eq_some_iff]
    constructor
    · rintro ⟨⟨mem, -⟩, named⟩
      exact ⟨mem, named⟩
    · rintro ⟨mem, rfl⟩
      exact ⟨⟨mem, kept⟩, rfl⟩

end

end Document

end Shale.Membership
