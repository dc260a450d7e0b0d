import Mathlib.Data.List.Basic

/-!
# Objects of a conditional store

One object of a linearizable store that offers create-if-absent, compare-and-set and a plain
read. What the object has held so far is the list of the data written to it, oldest first, and
every write is named by a version token. Tokens are opaque. A store may count its writes, so
that no token repeats, or hash what is written, so that a token repeats with the data; a
`Versions` is any naming in which two writes that share a token have written the same data.
-/

namespace Shale

/-- How a store names its writes: the token of the write at a place in the order, with the
data it writes. -/
structure Versions (Data Version : Type) where
  token : Nat → Data → Version
  eq_of_token_eq : ∀ {i j : Nat} {d e : Data}, token i d = token j e → i = j ∨ d = e

namespace Versions

def counted (Data : Type) : Versions Data Nat where
  token := fun i _ => i
  eq_of_token_eq := .inl

def content (Data : Type) : Versions Data Data where
  token := fun _ data => data
  eq_of_token_eq := .inr

end Versions

structure CondObject (Data : Type) where
  stored : List Data
deriving DecidableEq

namespace CondObject

variable {Data Version : Type}

def empty : CondObject Data := ⟨[]⟩

def current (obj : CondObject Data) : Option Data := obj.stored.getLast?

def write (obj : CondObject Data) (data : Data) : CondObject Data := ⟨obj.stored ++ [data]⟩

@[simp] theorem current_write (obj : CondObject Data) (data : Data) :
    (obj.write data).current = some data := by
  simp [current, write]

@[simp] theorem current_empty : (empty : CondObject Data).current = none := rfl

def get (vs : Versions Data Version) (obj : CondObject Data) : Option (Data × Version) :=
  obj.current.map fun data => (data, vs.token (obj.stored.length - 1) data)

def putIfAbsent (obj : CondObject Data) (data : Data) : Option (CondObject Data) :=
  match obj.current with
  | none => some (obj.write data)
  | some _ => none

def compareAndSet [DecidableEq Version] (vs : Versions Data Version) (obj : CondObject Data)
    (data : Data) (expected : Version) : Option (CondObject Data) :=
  match obj.get vs with
  | none => none
  | some (_, version) => if version = expected then some (obj.write data) else none

def attempt [DecidableEq Version] (vs : Versions Data Version) (obj : CondObject Data)
    (data : Data) : Option Version → Option (CondObject Data)
  | none => obj.putIfAbsent data
  | some expected => obj.compareAndSet vs data expected

def Wrote (vs : Versions Data Version) (obj : CondObject Data) (data : Data)
    (version : Version) : Prop :=
  ∃ i, obj.stored[i]? = some data ∧ version = vs.token i data

variable {vs : Versions Data Version} {obj later : CondObject Data} {data next : Data}
  {version : Version}

theorem Wrote.write (wrote : obj.Wrote vs data version) (next : Data) :
    (obj.write next).Wrote vs data version := by
  obtain ⟨i, held, named⟩ := wrote
  refine ⟨i, ?_, named⟩
  obtain ⟨below, _⟩ := List.getElem?_eq_some_iff.mp held
  rw [CondObject.write, List.getElem?_append_left below, held]

theorem of_get (read : obj.get vs = some (data, version)) :
    obj.current = some data ∧ obj.Wrote vs data version := by
  obtain ⟨found, held, same⟩ := Option.map_eq_some_iff.mp read
  cases same
  exact ⟨held, obj.stored.length - 1, by rwa [← List.getLast?_eq_getElem?], rfl⟩

theorem map_fst_get (vs : Versions Data Version) (obj : CondObject Data) :
    (obj.get vs).map Prod.fst = obj.current := by
  simp [get, Function.comp_def]

theorem of_putIfAbsent (put : obj.putIfAbsent data = some later) :
    obj.current = none ∧ later = obj.write data := by
  unfold putIfAbsent at put
  split at put
  case h_1 absent => exact ⟨absent, (Option.some.inj put).symm⟩
  case h_2 => cases put

theorem of_compareAndSet [DecidableEq Version] (wrote : obj.Wrote vs data version)
    (set : obj.compareAndSet vs next version = some later) :
    obj.current = some data ∧ later = obj.write next := by
  unfold compareAndSet at set
  split at set
  case h_1 => cases set
  case h_2 found named read =>
    split at set
    case isFalse => cases set
    case isTrue agrees =>
      obtain ⟨held, j, here, rfl⟩ := of_get read
      obtain ⟨i, there, rfl⟩ := wrote
      refine ⟨?_, (Option.some.inj set).symm⟩
      rcases vs.eq_of_token_eq agrees with rfl | rfl
      · rw [held, ← here, there]
      · exact held

theorem of_attempt [DecidableEq Version] {base : Option (Data × Version)}
    (wrote : ∀ {data version}, base = some (data, version) → obj.Wrote vs data version)
    (tried : obj.attempt vs next (base.map Prod.snd) = some later) :
    obj.current = base.map Prod.fst ∧ later = obj.write next := by
  cases base with
  | none => exact of_putIfAbsent tried
  | some read => exact of_compareAndSet (wrote rfl) tried

end CondObject

end Shale
