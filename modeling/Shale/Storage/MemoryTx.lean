import Shale.Storage.Store

/-!
# Transactions of the in-memory backend

`transaction` of `pkg/backend/memory`: writes and deletes are buffered in an overlay, reads
go to the overlay and else to the parent's live contents, and a commit flushes the overlay
under the parent's lock. Nothing detects that the parent has changed in between.
-/

namespace Shale

/-- The overlay of a `transaction`. -/
structure MemoryTx (Value : Type) where
  writes : Store Value
  deletes : List Bytes

namespace MemoryTx

variable {Value : Type} {parent : Store Value} {tx : MemoryTx Value} {key other : Bytes}
  {value : Value}

def begin : MemoryTx Value := ⟨∅, []⟩

def get (parent : Store Value) (tx : MemoryTx Value) (key : Bytes) : Option Value :=
  if key ∈ tx.deletes then none
  else
    match tx.writes.get key with
    | some value => some value
    | none => parent.get key

def put (tx : MemoryTx Value) (key : Bytes) (value : Value) : MemoryTx Value :=
  { writes := tx.writes.put key value, deletes := tx.deletes.filter (· ≠ key) }

def delete (tx : MemoryTx Value) (key : Bytes) : MemoryTx Value :=
  { writes := tx.writes.delete key, deletes := key :: tx.deletes.filter (· ≠ key) }

def write (tx : MemoryTx Value) (key : Bytes) : Option Value → MemoryTx Value
  | some value => tx.put key value
  | none => tx.delete key

def commit (parent : Store Value) (tx : MemoryTx Value) : Store Value :=
  tx.deletes.foldl Store.delete (tx.writes ∪ parent)

@[simp] theorem get_begin : get parent begin key = parent.get key := by
  simp [get, begin]

theorem get_commit (parent : Store Value) (tx : MemoryTx Value) (key : Bytes) :
    (commit parent tx).get key = get parent tx key := by
  rw [commit, Store.get_foldl_delete, get]
  by_cases deleted : key ∈ tx.deletes
  · simp [deleted]
  · simp only [deleted, ↓reduceIte]
    cases buffered : tx.writes.get key with
    | some value =>
      exact AList.lookup_union_eq_some.mpr (.inl buffered)
    | none => exact AList.lookup_union_right (AList.lookup_eq_none.mp buffered)

@[simp] theorem get_put_self : get parent (tx.put key value) key = some value := by
  simp [get, put]

theorem get_put_of_ne (differs : other ≠ key) :
    get parent (tx.put key value) other = get parent tx other := by
  simp [get, put, Store.get_put_of_ne differs, differs]

@[simp] theorem get_delete_self : get parent (tx.delete key) key = none := by
  simp [get, delete]

theorem get_delete_of_ne (differs : other ≠ key) :
    get parent (tx.delete key) other = get parent tx other := by
  simp [get, delete, Store.get_delete_of_ne differs, differs]

@[simp] theorem get_write_self {effect : Option Value} :
    get parent (tx.write key effect) key = effect := by
  cases effect <;> simp [write]

theorem get_write_of_ne {effect : Option Value} (differs : other ≠ key) :
    get parent (tx.write key effect) other = get parent tx other := by
  cases effect
  · exact get_delete_of_ne differs
  · exact get_put_of_ne differs

theorem get_of_notMem (kept : key ∉ tx.deletes) (unwritten : key ∉ tx.writes.keys) :
    get parent tx key = parent.get key := by
  have missing : tx.writes.get key = none := AList.lookup_eq_none.mpr unwritten
  simp [get, kept, missing]

end MemoryTx

end Shale
