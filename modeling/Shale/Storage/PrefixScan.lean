import Mathlib.Data.List.Lex
import Mathlib.Data.List.Sort
import Mathlib.Data.List.TakeWhile
import Mathlib.Order.Bounds.Basic
import Shale.Foundation.Loop
import Shale.Storage.Store

/-!
# Prefix scans

`ScanPrefix` of the Pebble backend reads the range of keys from the prefix up to
`prefixUpperBound`, which raises the last byte that can be raised and cuts off what follows. Keys
are ordered as byte strings.

Its iterator hands out copies of the keys. The copy of an empty slice is nil, and a nil key is
how an iterator says that it is exhausted.
-/

namespace Shale

open List

instance linearOrderUInt8 : LinearOrder UInt8 where
  le_refl := UInt8.le_refl
  le_trans _ _ _ := UInt8.le_trans
  le_antisymm _ _ := UInt8.le_antisymm
  le_total := UInt8.le_total
  lt_iff_le_not_ge _ _ := by
    simp only [UInt8.lt_iff_toNat_lt, UInt8.le_iff_toNat_le]
    omega
  toDecidableLE := inferInstance
  toDecidableLT := inferInstance

section Scans

variable {Value : Type}

structure Scans (get : Bytes → Option Value) (pre : Bytes) (pairs : List (Bytes × Value)) :
    Prop where
  ascending : pairs.Pairwise fun left right => left.1 < right.1
  exact : ∀ {key value}, (key, value) ∈ pairs ↔ pre <+: key ∧ get key = some value

def sortPairs (pairs : List (Bytes × Value)) : List (Bytes × Value) :=
  pairs.insertionSort fun left right => left.1 ≤ right.1

variable {pairs : List (Bytes × Value)} {get : Bytes → Option Value} {pre : Bytes}

theorem Scans.of_sort (distinct : (pairs.map Prod.fst).Nodup)
    (exact : ∀ {key value}, (key, value) ∈ pairs ↔ pre <+: key ∧ get key = some value) :
    Scans get pre (sortPairs pairs) := by
  have perm : (sortPairs pairs).Perm pairs := perm_insertionSort _ pairs
  refine ⟨?_, (mem_insertionSort _).trans exact⟩
  have sorted : (sortPairs pairs).Pairwise fun left right => left.1 ≤ right.1 :=
    pairwise_insertionSort _ pairs
  have apart := pairwise_map.mp ((perm.map Prod.fst).nodup_iff.mpr distinct)
  exact (sorted.and apart).imp fun ⟨le, ne⟩ => lt_of_le_of_ne le ne

theorem Scans.congr_iff {other : Bytes → Option Value} (scans : Scans get pre pairs) :
    Scans other pre pairs ↔ ∀ key, pre <+: key → get key = other key := by
  constructor
  · intro also key pref
    refine Option.ext fun value => ?_
    have same : pre <+: key ∧ get key = some value ↔ pre <+: key ∧ other key = some value :=
      scans.exact.symm.trans also.exact
    simpa [pref] using same
  · intro same
    refine ⟨scans.ascending, fun {key value} => scans.exact.trans ?_⟩
    exact and_congr_right fun pref => by rw [same key pref]

def drainTurn {It : Type} (next : It → Option Bytes × Bytes × It)
    (s : It × List (Bytes × Bytes)) : List (Bytes × Bytes) ⊕ (It × List (Bytes × Bytes)) :=
  match next s.1 with
  | (none, _, _) => .inl s.2
  | (some key, value, it) => .inr (it, s.2 ++ [(key, value)])

def Yields {It : Type} (next : It → Option Bytes × Bytes × It) (it : It)
    (pairs : List (Bytes × Bytes)) : Prop :=
  ∃ enough, ∀ fuel, enough ≤ fuel → Loop.run (drainTurn next) fuel (it, []) = some pairs

theorem Yields.unique {It : Type} {next : It → Option Bytes × Bytes × It} {it : It}
    {left right : List (Bytes × Bytes)} (first : Yields next it left)
    (second : Yields next it right) : left = right := by
  obtain ⟨enough, ran⟩ := first
  obtain ⟨also, again⟩ := second
  have same := (ran _ (Nat.le_max_left enough also)).symm.trans (again _ (Nat.le_max_right _ _))
  exact Option.some.inj same

end Scans

namespace Pebble

def upperBoundFrom (pre : Bytes) : Nat → Option Bytes
  | 0 => none
  | i + 1 =>
    if pre.getD i 0 ≠ 0xff then some ((pre.take (i + 1)).set i (pre.getD i 0 + 1))
    else upperBoundFrom pre i

def prefixUpperBound (pre : Bytes) : Option Bytes := upperBoundFrom pre pre.length

theorem upperBoundFrom_cons (byte : UInt8) (pre : Bytes) (i : Nat) :
    upperBoundFrom (byte :: pre) (i + 1) =
      match upperBoundFrom pre i with
      | some bound => some (byte :: bound)
      | none => if byte ≠ 0xff then some [byte + 1] else none := by
  induction i with
  | zero => simp [upperBoundFrom]
  | succ i ih =>
    have shifted : (byte :: pre).getD (i + 1) 0 = pre.getD i 0 := rfl
    rw [upperBoundFrom.eq_2 (byte :: pre), ih, upperBoundFrom.eq_2 pre, shifted]
    by_cases last : pre.getD i 0 = 0xff
    · rw [if_neg (not_not.mpr last), if_neg (not_not.mpr last)]
    · rw [if_pos last, if_pos last]
      rfl

theorem lt_succ_iff {a b : UInt8} (below : b ≠ 0xff) : a < b + 1 ↔ a ≤ b := by
  have : b.toNat ≠ 255 := fun same => below (UInt8.toNat_inj.mp same)
  have := b.toNat_lt
  rw [UInt8.lt_iff_toNat_lt, UInt8.le_iff_toNat_le, UInt8.toNat_add]
  simp
  omega

theorem isPrefix_iff_range (pre key : Bytes) :
    pre <+: key ↔ pre ≤ key ∧ ∀ bound ∈ prefixUpperBound pre, key < bound := by
  rw [← not_lt]
  unfold prefixUpperBound
  induction pre generalizing key with
  | nil => simp [upperBoundFrom]
  | cons byte pre ih =>
    cases key with
    | nil => simp
    | cons first key =>
      rw [length_cons, upperBoundFrom_cons, cons_prefix_cons, ih, cons_lt_cons_iff]
      rcases lt_trichotomy byte first with above | rfl | below
      · -- The key is beyond the bound, unless the byte is the last one there is.
        cases upperBoundFrom pre pre.length with
        | some bound => simp [above.not_gt, above.ne, above.ne', cons_lt_cons_iff]
        | none =>
          have raised : byte ≠ 0xff := by
            rintro rfl
            have top : first ≤ 0xff :=
              UInt8.le_iff_toNat_le.mpr (Nat.le_of_lt_succ first.toNat_lt)
            exact absurd above (not_lt.mpr top)
          simp [raised, above.ne, cons_lt_cons_iff, lt_succ_iff raised, above]
      · cases upperBoundFrom pre pre.length with
        | some bound => simp
        | none =>
          by_cases full : byte = 0xff
          · simp [full]
          · simp [full, cons_lt_cons_iff, lt_succ_iff full]
      · simp [below, below.ne']

/-- **The prefix range bound is exact.** A key has a prefix exactly if it is in the range, and the
bound, if there is one, is the least byte string above all of these keys. -/
theorem prefix_range_exact (pre key : Bytes) :
    (pre <+: key ↔ pre ≤ key ∧ ∀ bound ∈ prefixUpperBound pre, key < bound) ∧
      ∀ bound ∈ prefixUpperBound pre,
        IsLeast {above : Bytes | ∀ key, pre <+: key → key < above} bound := by
  refine ⟨isPrefix_iff_range pre key, fun bound made => ⟨?_, fun above beyond => ?_⟩⟩
  · intro key listed
    exact ((isPrefix_iff_range pre key).mp listed).2 bound made
  · by_contra smaller
    have listed : pre <+: above := by
      refine (isPrefix_iff_range pre above).mpr ⟨(beyond pre prefix_rfl).le, ?_⟩
      rintro other same
      cases made.symm.trans same
      exact not_le.mp smaller
    exact lt_irrefl above (beyond above listed)

section Iterator

variable {Value : Type}

def range (store : Store Value) (lower : Bytes) (upper : Option Bytes) : List (Bytes × Value) :=
  sortPairs (store.scan.filter fun entry =>
    decide (lower ≤ entry.1 ∧ ∀ bound ∈ upper, entry.1 < bound))

theorem scans_range (store : Store Value) (pre : Bytes) :
    Scans store.get pre (range store pre (prefixUpperBound pre)) := by
  refine .of_sort ?_ ?_
  · exact ((filter_sublist).map Prod.fst).nodup store.nodup_scan
  · intro key value
    rw [mem_filter, Store.mem_scan, decide_eq_true_eq, ← isPrefix_iff_range, and_comm]

/-- `append([]byte(nil), b...)`, which is nil if there is nothing to append. -/
def copied (b : Bytes) : Option Bytes := if b = [] then none else some b

/-- `iterator`: the cursor of pebble, which the constructor has put on the first entry. -/
structure Iterator where
  entries : List (Bytes × Bytes)
  pos : Nat
  started : Bool

def scanPrefix (store : Store Bytes) (pre : Bytes) : Iterator :=
  ⟨range store pre (prefixUpperBound pre), 0, false⟩

/-- The first `Next` stays on the first entry, every later one moves on. -/
def Iterator.advance (i : Iterator) : Iterator :=
  if i.started then { i with pos := i.pos + 1 } else { i with started := true }

def Iterator.next (i : Iterator) : Option Bytes × Bytes × Iterator :=
  match i.advance.entries[i.advance.pos]? with
  | none => (none, [], i.advance)
  | some (key, value) => (copied key, value, i.advance)

def Iterator.remaining (i : Iterator) : List (Bytes × Bytes) :=
  i.advance.entries.drop i.advance.pos

theorem Iterator.remaining_advance (i : Iterator) : i.advance.remaining = i.remaining.tail := by
  have later : i.advance.advance = { i.advance with pos := i.advance.pos + 1 } := by
    have started : i.advance.started = true := by
      unfold advance
      split <;> simp_all
    rw [advance, if_pos started]
  rw [remaining, later, remaining, tail_drop]

theorem Iterator.next_eq (i : Iterator) : i.next = match i.remaining with
    | [] => (none, [], i.advance)
    | (key, value) :: _ => (copied key, value, i.advance) := by
  rw [next, remaining, ← List.head?_drop]
  cases i.advance.entries.drop i.advance.pos <;> rfl

theorem run_drainTurn (fuel : Nat) (i : Iterator) (out : List (Bytes × Bytes))
    (enough : i.remaining.length < fuel) :
    Loop.run (drainTurn Iterator.next) fuel (i, out) =
      some (out ++ i.remaining.takeWhile fun entry => entry.1 ≠ []) := by
  induction fuel generalizing i out with
  | zero => exact absurd enough (Nat.not_lt_zero _)
  | succ fuel ih =>
    have next := i.next_eq
    have advanced := i.remaining_advance
    cases left : i.remaining with
    | nil =>
      rw [left] at next
      have stops : drainTurn Iterator.next (i, out) = .inl out := by rw [drainTurn, next]
      rw [Loop.run_of_ends stops]
      simp
    | cons entry rest =>
      obtain ⟨key, value⟩ := entry
      rw [left] at next advanced enough
      by_cases empty : key = []
      · have stops : drainTurn Iterator.next (i, out) = .inl out := by
          simp [drainTurn, next, copied, empty]
        rw [Loop.run_of_ends stops]
        simp [empty]
      · have continues :
            drainTurn Iterator.next (i, out) = .inr (i.advance, out ++ [(key, value)]) := by
          have kept : copied key = some key := if_neg empty
          simp only [drainTurn, next, kept]
        rw [Loop.run_of_continues continues, ih _ _ (by simpa [advanced] using enough), advanced]
        simp [empty]

/-- **Completeness of prefix scans.** Draining the iterator yields the stored pairs with the
prefix, unless the scan is of all keys and the empty key is one of them. -/
theorem pebble_scan_complete_iff (store : Store Bytes) (pre : Bytes) :
    (∃ pairs, Yields Iterator.next (scanPrefix store pre) pairs ∧ Scans store.get pre pairs) ↔
      ¬ (pre = [] ∧ (store.get []).isSome = true) := by
  have drained := fun fuel => run_drainTurn fuel (scanPrefix store pre) []
  have all : (scanPrefix store pre).remaining = range store pre (prefixUpperBound pre) := rfl
  have scans := scans_range store pre
  rw [all] at drained
  constructor
  · rintro ⟨pairs, ⟨enough, ran⟩, wanted⟩ ⟨rfl, held⟩
    obtain ⟨value, held⟩ := Option.isSome_iff_exists.mp held
    have ends := drained (enough + (range store [] (prefixUpperBound [])).length + 1) (by omega)
    rw [ran _ (by omega), Option.some.injEq, nil_append] at ends
    have listed := wanted.exact.mpr ⟨by simp, held⟩
    rw [ends] at listed
    simpa using mem_takeWhile_imp listed
  · intro plain
    refine ⟨_, ⟨_, fun fuel enough => (drained fuel enough).trans ?_⟩, scans⟩
    rw [nil_append, takeWhile_eq_self_iff.mpr]
    rintro ⟨key, value⟩ listed
    obtain ⟨pref, held⟩ := scans.exact.mp listed
    simp only [decide_eq_true_eq]
    rintro rfl
    exact plain ⟨prefix_nil.mp pref, by simp [held]⟩

/-- A store with the empty key and `a`: the scan of all keys yields neither. -/
theorem pebble_scan_stops_at_empty_key :
    let store := (Store.put ∅ [] [1]).put [97] [2]
    Yields Iterator.next (scanPrefix store []) [] ∧ ¬ Scans store.get [] [] := by
  intro store
  have stops : drainTurn Iterator.next (scanPrefix store [], []) = .inl [] := rfl
  refine ⟨⟨1, fun fuel enough => ?_⟩, fun scans => ?_⟩
  · obtain ⟨more, rfl⟩ := Nat.exists_eq_add_of_le' enough
    exact Loop.run_of_ends stops
  · have held : ([97], [2]) ∈ ([] : List (Bytes × Bytes)) :=
      scans.exact.mpr ⟨by simp, by decide⟩
    exact not_mem_nil held

end Iterator

end Pebble

end Shale
