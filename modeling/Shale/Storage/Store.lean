import Mathlib.Data.List.AList

/-!
# Unit databases

The contents of one unit's database as a finite map from keys to values, with the
operations `backend.Backend` offers on it. `Store.scan` is the snapshot that
`ScanPrefix(nil)` iterates over; its order plays no role in what is copied from it.
-/

namespace Shale

open List Function

abbrev Bytes := List UInt8

instance (key : Bytes) (keys : List Bytes) : Decidable (key ∈ keys) :=
  List.instDecidableMemOfLawfulBEq key keys

/-- The contents of one database: raw bytes at one replica, envelopes at several. -/
abbrev Store (Value : Type) := AList (fun _ : Bytes => Value)

namespace Store

variable {Value : Type} {key other : Bytes} {value : Value} {store : Store Value}

def get (store : Store Value) (key : Bytes) : Option Value := store.lookup key

def put (store : Store Value) (key : Bytes) (value : Value) : Store Value :=
  store.insert key value

def delete (store : Store Value) (key : Bytes) : Store Value := store.erase key

def scan (store : Store Value) : List (Bytes × Value) :=
  store.entries.map fun entry => (entry.1, entry.2)

def write (store : Store Value) (key : Bytes) : Option Value → Store Value
  | some value => store.put key value
  | none => store.delete key

@[simp] theorem get_empty : get (∅ : Store Value) key = none := AList.lookup_empty key

@[simp] theorem get_put_self : (store.put key value).get key = some value :=
  AList.lookup_insert store

theorem get_put_of_ne (differs : other ≠ key) : (store.put key value).get other = store.get other :=
  AList.lookup_insert_ne differs

@[simp] theorem get_delete_self : (store.delete key).get key = none :=
  AList.lookup_erase key store

theorem get_delete_of_ne (differs : other ≠ key) : (store.delete key).get other = store.get other :=
  AList.lookup_erase_ne differs

@[simp] theorem get_write_self {effect : Option Value} :
    (store.write key effect).get key = effect := by
  cases effect <;> simp [write]

theorem get_write_of_ne {effect : Option Value} (differs : other ≠ key) :
    (store.write key effect).get other = store.get other := by
  cases effect
  · exact get_delete_of_ne differs
  · exact get_put_of_ne differs

theorem mem_keys_of_get (held : store.get key = some value) : key ∈ store.keys :=
  AList.mem_keys.mp (AList.lookup_isSome.mp (by rw [get] at held; simp [held]))

theorem lookup_scan (store : Store Value) (key : Bytes) :
    (store.scan).lookup key = store.get key := by
  obtain ⟨entries, nodup⟩ := store
  simp only [scan, get, AList.lookup]
  clear nodup
  induction entries with
  | nil => simp
  | cons entry rest ih =>
    obtain ⟨first, value⟩ := entry
    by_cases same : first = key
    · subst same
      simp
    · have flipped : (key == first) = false := by simpa using fun eq => same eq.symm
      rw [dlookup_cons_ne rest ⟨first, value⟩ (Ne.symm same)]
      simp [lookup_cons, flipped, ih]

/-- Copying the next entry of a scan into the database where its key belongs: what the entries
still to come lay over the databases stays the same. -/
theorem or_get_update_put {Unit : Type} [DecidableEq Unit] (db : Unit → Store Value)
    {entry : Bytes × Value} {rest : List (Bytes × Value)}
    (distinct : ((entry :: rest).map Prod.fst).Nodup) {home target : Unit}
    (goes : key = entry.1 → home = target) :
    (rest.lookup key).or
        ((update db target ((db target).put entry.1 entry.2) home).get key) =
      ((entry :: rest).lookup key).or ((db home).get key) := by
  obtain ⟨copied, value⟩ := entry
  by_cases same : key = copied
  · subst same
    have last : rest.lookup key = none := by
      rw [lookup_eq_none_iff]
      intro other mem
      have absent : key ∉ rest.map Prod.fst := (nodup_cons.mp distinct).1
      simpa using fun eq : key = other.1 => absent (eq ▸ mem_map_of_mem mem)
    rw [goes rfl, update_self, get_put_self, last, lookup_cons_self]
    rfl
  · rw [lookup_cons, beq_false_of_ne same]
    by_cases hit : home = target
    · rw [hit, update_self, get_put_of_ne same]
    · rw [update_of_ne hit]

theorem mem_scan {key : Bytes} {value : Value} :
    (key, value) ∈ store.scan ↔ store.get key = some value := by
  rw [get, ← Option.mem_def, AList.mem_lookup_iff, scan, mem_map]
  constructor
  · rintro ⟨⟨first, stored⟩, mem, same⟩
    cases same
    exact mem
  · intro mem
    exact ⟨⟨key, value⟩, mem, rfl⟩

theorem nodup_scan (store : Store Value) : (store.scan.map Prod.fst).Nodup := by
  have := store.nodupKeys
  simpa [scan, List.NodupKeys, List.keys, Function.comp_def] using this

def clear (store : Store Value) : Store Value :=
  (store.scan.map Prod.fst).foldl delete store

theorem get_foldl_delete (keys : List Bytes) (store : Store Value) (key : Bytes) :
    (keys.foldl delete store).get key = if key ∈ keys then none else store.get key := by
  induction keys generalizing store with
  | nil => simp
  | cons first rest ih =>
    rw [foldl_cons, ih]
    by_cases same : key = first
    · simp [same]
    · simp [same, get_delete_of_ne same]

theorem get_foldl_put {entries : List (Bytes × Value)} (distinct : (entries.map Prod.fst).Nodup)
    {store : Store Value} {key : Bytes} {value : Value} :
    (entries.foldl (fun store entry => put store entry.1 entry.2) store).get key = some value ↔
      (key, value) ∈ entries ∨ key ∉ entries.map Prod.fst ∧ store.get key = some value := by
  induction entries generalizing store with
  | nil => simp
  | cons first rest ih =>
    obtain ⟨named, stored⟩ := first
    obtain ⟨apart, distinct⟩ := nodup_cons.mp distinct
    rw [foldl_cons, ih distinct]
    by_cases same : key = named
    · subst same
      have absent : (key, value) ∉ rest :=
        fun later => apart (mem_map.mpr ⟨_, later, rfl⟩)
      simp only [absent, apart, mem_cons, map_cons]
      simp [eq_comm]
    · simp [same, Store.get_put_of_ne same]

@[simp] theorem get_clear (store : Store Value) (key : Bytes) : (store.clear).get key = none := by
  rw [clear, get_foldl_delete]
  split
  · rfl
  case isFalse absent =>
    rw [← lookup_scan, lookup_eq_none_iff]
    intro entry present
    have : entry.1 ∈ store.scan.map Prod.fst := mem_map_of_mem present
    simpa using fun same : key = entry.1 => absent (same ▸ this)

end Store

end Shale
