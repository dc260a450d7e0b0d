import Shale.Replication.Codec
import Shale.Storage.Generation

/-!
# The scan of all mounted units

`ScanPrefixAllUnits` of `scan_all_units.go` walks the units that a node has mounted, scans each
once, and hands on what `drainDecoded` makes of the entries: a value that decodes as an envelope
is replaced by its payload, and an empty one is taken for a tombstone and skipped. At one replica
values are stored raw, so that a raw value which happens to start like an envelope is cut or
skipped; and while a unit splits its keys are found in the parent and in a child.
-/

namespace Shale.AllUnits

open List

def handedOn (v : Bytes) : Option Bytes :=
  let v := match Wire.decode v with
    | .ok env => env.payload
    | .error _ => v
  if v = [] then none else some v

section Model

variable {Error : Type} (fn : Bytes → Bytes → Option Error)

structure Iterator (Error : Type) where
  entries : List (Bytes × Bytes)
  ended : Option Error

def drainDecoded (ended : Option Error) : List (Bytes × Bytes) → List (Bytes × Bytes) × Option Error
  | [] => ([], ended)
  | (k, v) :: rest =>
    match handedOn v with
    | none => drainDecoded ended rest
    | some value =>
      match fn k value with
      | some err => ([(k, value)], some err)
      | none => ((k, value) :: (drainDecoded ended rest).1, (drainDecoded ended rest).2)

def scanUnits (anyForUnit : GenUnit → Option ReplicaUnit)
    (scanPrefix : ReplicaUnit → Except Error (Iterator Error)) :
    List GenUnit → List ReplicaUnit → List (Bytes × Bytes) × Option Error
  | _, [] => ([], none)
  | seen, ru :: rest =>
    if ru.unit ∈ seen then scanUnits anyForUnit scanPrefix seen rest
    else
      match anyForUnit ru.unit with
      | none => scanUnits anyForUnit scanPrefix (ru.unit :: seen) rest
      | some mounted =>
        match scanPrefix mounted with
        | .error err => ([], some err)
        | .ok it =>
          match drainDecoded fn it.ended it.entries with
          | (calls, some err) => (calls, some err)
          | (calls, none) =>
            (calls ++ (scanUnits anyForUnit scanPrefix (ru.unit :: seen) rest).1,
              (scanUnits anyForUnit scanPrefix (ru.unit :: seen) rest).2)

def scanPrefixAllUnits (notReady multi : Bool) (errClosed : Error)
    (single : Except Error (Iterator Error)) (mountedList : List ReplicaUnit)
    (anyForUnit : GenUnit → Option ReplicaUnit)
    (scanPrefix : ReplicaUnit → Except Error (Iterator Error)) :
    List (Bytes × Bytes) × Option Error :=
  if notReady then ([], some errClosed)
  else if multi then scanUnits fn anyForUnit scanPrefix [] mountedList
  else
    match single with
    | .error err => ([], some err)
    | .ok it => drainDecoded fn it.ended it.entries

end Model

structure Node where
  gs : GenState
  hash : Bytes → ShardHash
  mounted : List ReplicaUnit
  nodup : mounted.Nodup
  primary : ∀ ru ∈ mounted, ru.replica = 0
  db : ReplicaUnit → Store Bytes

namespace Node

variable (node : Node) (key : Bytes)

/-- The position that a `Get` reads. -/
def home : ReplicaUnit := ⟨node.gs.resolveGenUnit (node.hash key), 0⟩

def get : Option Bytes :=
  if node.home key ∈ node.mounted then (node.db (node.home key)).get key else none

end Node

/-- A complete envelope header: the magic byte, eight bytes of the timestamp, two that tell the
length of the node ID, and the ID. -/
def IsHeader (header : Bytes) : Prop :=
  header.head? = some Wire.envelopeMagic ∧
    header.length = 11 + Wire.ofBigEndian ((header.drop 9).take 2)

/-- The stored bytes start with a complete header, which is cut off. -/
def Cut (v payload : Bytes) : Prop := ∃ header, IsHeader header ∧ v = header ++ payload

/-- The stored bytes are not handed on. -/
def Hidden (v : Bytes) : Prop := v = [] ∨ Cut v []

/-- Which copies the mounted databases hold of a key, for it to be visited as a `Get` reads it:
none that is handed on, if it is not live; else the live value, which does not start with a header,
and no other that is handed on; or, of a live value that is a bare header itself, one copy elsewhere
that has another header in front of it. -/
inductive Exposed (node : Node) (key : Bytes) : Prop
  | absent (dead : node.get key = none)
      (hidden : ∀ ru ∈ node.mounted, ∀ w ∈ (node.db ru).get key, Hidden w)
  | whole (v : Bytes) (live : node.get key = some v) (filled : v ≠ [])
      (uncut : ∀ payload, ¬ Cut v payload)
      (hidden : ∀ ru ∈ node.mounted, ru ≠ node.home key → ∀ w ∈ (node.db ru).get key, Hidden w)
  | wrapped (v w : Bytes) (ru : ReplicaUnit) (live : node.get key = some v) (filled : v ≠ [])
      (mounted : ru ∈ node.mounted) (stored : (node.db ru).get key = some w) (cut : Cut w v)
      (hidden : ∀ other ∈ node.mounted, other ≠ ru → ∀ w ∈ (node.db other).get key, Hidden w)

/-- What a scan of a node meets: the mounted positions in some order, a mounted position of each
unit, and from each database its entries with the prefix in some order, or an error. -/
structure Meets (node : Node) (pre : Bytes) {Error : Type} (mountedList : List ReplicaUnit)
    (anyForUnit : GenUnit → Option ReplicaUnit)
    (scanPrefix : ReplicaUnit → Except Error (Iterator Error)) : Prop where
  listed : mountedList.Perm node.mounted
  any : ∀ ru ∈ node.mounted, ∃ other ∈ node.mounted, other.unit = ru.unit ∧
    anyForUnit ru.unit = some other
  scans : ∀ ru it, scanPrefix ru = .ok it →
    it.entries.Perm ((node.db ru).scan.filter fun entry => pre.isPrefixOf entry.1)

def valuesOf (key : Bytes) (calls : List (Bytes × Bytes)) : List Bytes :=
  calls.filterMap fun call => if call.1 = key then some call.2 else none

def Exact (node : Node) (pre : Bytes) (calls : List (Bytes × Bytes)) : Prop :=
  (∀ call ∈ calls, pre.isPrefixOf call.1 = true) ∧
    ∀ key, pre.isPrefixOf key = true → valuesOf key calls = (node.get key).toList

section Scan

variable {Error : Type} {fn : Bytes → Bytes → Option Error} {node : Node} {pre key : Bytes}
  {anyForUnit : GenUnit → Option ReplicaUnit}
  {scanPrefix : ReplicaUnit → Except Error (Iterator Error)}

def callFor (entry : Bytes × Bytes) : Option (Bytes × Bytes) :=
  (handedOn entry.2).map fun value => (entry.1, value)

variable {entries : List (Bytes × Bytes)}

theorem drainDecoded_of_clean {ended : Option Error}
    (clean : (drainDecoded fn ended entries).2 = none) :
    (drainDecoded fn ended entries).1 = entries.filterMap callFor := by
  induction entries with
  | nil => rfl
  | cons entry rest ih =>
    obtain ⟨k, v⟩ := entry
    rw [drainDecoded] at clean ⊢
    cases handed : handedOn v with
    | none =>
      rw [handed] at clean
      rw [filterMap_cons_none (by rw [callFor, handed]; rfl)]
      exact ih clean
    | some value =>
      rw [handed] at clean
      rw [filterMap_cons_some (b := (k, value)) (by rw [callFor, handed]; rfl)]
      dsimp only at clean ⊢
      cases called : fn k value with
      | some err =>
        rw [called] at clean
        cases clean
      | none =>
        rw [called] at clean
        exact congrArg ((k, value) :: ·) (ih clean)

def entriesOf (scanPrefix : ReplicaUnit → Except Error (Iterator Error)) (ru : ReplicaUnit) :
    List (Bytes × Bytes) :=
  match scanPrefix ru with
  | .ok it => it.entries
  | .error _ => []

theorem scanUnits_of_clean {order : List ReplicaUnit} {seen : List GenUnit}
    (fresh : ∀ ru ∈ order, ru.unit ∉ seen) (distinct : (order.map ReplicaUnit.unit).Nodup)
    (any : ∀ ru ∈ order, anyForUnit ru.unit = some ru)
    (clean : (scanUnits fn anyForUnit scanPrefix seen order).2 = none) :
    (∀ ru ∈ order, ∃ it, scanPrefix ru = .ok it) ∧
      (scanUnits fn anyForUnit scanPrefix seen order).1 =
        order.flatMap fun ru => (entriesOf scanPrefix ru).filterMap callFor := by
  induction order generalizing seen with
  | nil => exact ⟨nofun, rfl⟩
  | cons ru rest ih =>
    obtain ⟨apart, distinct⟩ := nodup_cons.mp distinct
    rw [scanUnits, if_neg (fresh ru (by simp)), any ru (by simp)] at clean ⊢
    dsimp only at clean ⊢
    cases scanned : scanPrefix ru with
    | error err =>
      rw [scanned] at clean
      cases clean
    | ok it =>
      rw [scanned] at clean
      dsimp only at clean ⊢
      cases drained : drainDecoded fn it.ended it.entries with
      | mk calls err =>
        rw [drained] at clean
        cases err with
        | some err => cases clean
        | none =>
          have handed := drainDecoded_of_clean (by rw [drained])
          rw [drained] at handed
          have unseen : ∀ other ∈ rest, other.unit ∉ ru.unit :: seen := by
            intro other later
            rw [mem_cons, not_or]
            exact ⟨fun same => apart (mem_map.mpr ⟨other, later, same⟩),
              fresh other (by simp [later])⟩
          obtain ⟨each, later⟩ :=
            ih unseen distinct (fun other later => any other (by simp [later])) clean
          refine ⟨forall_mem_cons.mpr ⟨⟨it, scanned⟩, each⟩, ?_⟩
          rw [flatMap_cons, ← later, entriesOf, scanned, ← handed]

theorem valuesOf_scan (store : Store Bytes) (key : Bytes) :
    valuesOf key store.scan = (store.get key).toList := by
  have nodup : (store.scan.filter fun entry => entry.1 = key).Nodup :=
    (List.Nodup.of_map Prod.fst store.nodup_scan).filter _
  have only : (store.scan.filter fun entry => entry.1 = key) =
      ((store.get key).map (key, ·)).toList := by
    cases held : store.get key with
    | none =>
      refine filter_eq_nil_iff.mpr fun entry listed => ?_
      rw [decide_eq_true_eq]
      rintro rfl
      cases held.symm.trans (Store.mem_scan.mp listed)
    | some value =>
      refine perm_singleton.mp ((perm_ext_iff_of_nodup nodup (by simp)).mpr ?_)
      rintro ⟨k, v⟩
      simp only [mem_filter, Store.mem_scan, decide_eq_true_eq, mem_singleton,
        Prod.mk.injEq]
      constructor
      · rintro ⟨stored, rfl⟩
        exact ⟨rfl, Option.some.inj (stored.symm.trans held)⟩
      · rintro ⟨rfl, rfl⟩
        exact ⟨held, rfl⟩
  have through : valuesOf key store.scan =
      (store.scan.filter fun entry => entry.1 = key).map Prod.snd := by
    rw [← filterMap_eq_map, filterMap_filter]
    simp [valuesOf]
  rw [through, only]
  cases store.get key <;> rfl

theorem perm_toList_iff {α : Type} {l : List α} {o : Option α} :
    l.Perm o.toList ↔ l = o.toList := by
  cases o with
  | none => exact perm_nil
  | some a => exact perm_singleton

theorem valuesOf_handed {store : Store Bytes}
    (scanned : entries.Perm (store.scan.filter fun entry => pre.isPrefixOf entry.1))
    (inside : pre.isPrefixOf key = true) :
    valuesOf key (entries.filterMap callFor) = ((store.get key).bind handedOn).toList := by
  have within : valuesOf key (store.scan.filter fun entry => pre.isPrefixOf entry.1) =
      valuesOf key store.scan := by
    rw [valuesOf, filterMap_filter]
    refine filterMap_congr fun entry _ => ?_
    by_cases same : entry.1 = key
    · simp [same, inside]
    · simp [same]
  have stored : valuesOf key entries = (store.get key).toList := by
    rw [← perm_toList_iff, ← valuesOf_scan, ← within]
    exact scanned.filterMap _
  have handed : valuesOf key (entries.filterMap callFor) =
      (valuesOf key entries).filterMap handedOn := by
    rw [valuesOf, valuesOf, filterMap_filterMap, filterMap_filterMap]
    refine filterMap_congr fun entry _ => ?_
    rw [callFor]
    cases handed : handedOn entry.2 <;> by_cases same : entry.1 = key <;> simp [same, handed]
  rw [handed, stored]
  cases store.get key <;> rfl

theorem cut_iff {v payload : Bytes} :
    Cut v payload ↔ v.head? = some Wire.envelopeMagic ∧
      11 + Wire.ofBigEndian ((v.drop 9).take 2) ≤ v.length ∧
      payload = v.drop (11 + Wire.ofBigEndian ((v.drop 9).take 2)) := by
  constructor
  · rintro ⟨header, ⟨marked, length⟩, rfl⟩
    have same : ((header ++ payload).drop 9).take 2 = (header.drop 9).take 2 := by
      rw [drop_append_of_le_length (by omega),
        take_append_of_le_length (by rw [length_drop]; omega)]
    rw [same, ← length]
    exact ⟨by rw [List.head?_append, marked, Option.some_or], by simp, by simp⟩
  · rintro ⟨marked, fits, rfl⟩
    refine ⟨v.take _, ⟨?_, ?_⟩, (take_append_drop _ v).symm⟩
    · rw [List.head?_take, if_neg (by omega), marked]
    · rw [length_take, Nat.min_eq_left fits, drop_take, take_take,
        Nat.min_eq_left (by omega)]

section Handed

variable {v payload value : Bytes}

theorem handedOn_of_cut (cut : Cut v payload) :
    handedOn v = if payload = [] then none else some payload := by
  obtain ⟨marked, fits, rfl⟩ := cut_iff.mp cut
  have decoded : ∃ stamp,
      Wire.decodeStamp v = .ok (stamp, 11 + Wire.ofBigEndian ((v.drop 9).take 2)) := by
    refine ⟨_, (if_neg (not_not.mpr marked)).trans ((if_neg (by omega)).trans (if_neg ?_))⟩
    exact Nat.not_lt.mpr fits
  obtain ⟨stamp, decoded⟩ := decoded
  simp [handedOn, Wire.decode, decoded]

theorem handedOn_of_uncut (uncut : ∀ payload, ¬ Cut v payload) :
    handedOn v = if v = [] then none else some v := by
  have decoded : Wire.decodeStamp v = .ok (.zero, 0) ∨ ∃ err, Wire.decodeStamp v = .error err := by
    unfold Wire.decodeStamp
    split
    · exact .inl rfl
    case isFalse marked =>
      split
      · exact .inr ⟨_, rfl⟩
      · dsimp only
        split
        · exact .inr ⟨_, rfl⟩
        case isFalse fits =>
          exact absurd (cut_iff.mpr ⟨not_not.mp marked, Nat.le_of_not_lt fits, rfl⟩) (uncut _)
  rcases decoded with decoded | ⟨err, decoded⟩ <;> simp [handedOn, Wire.decode, decoded]

theorem Cut.unique (cut : Cut v payload) (other : Cut v value) : payload = value :=
  (cut_iff.mp cut).2.2.trans (cut_iff.mp other).2.2.symm

theorem handedOn_eq_none_iff : handedOn v = none ↔ Hidden v := by
  by_cases cuts : ∃ payload, Cut v payload
  · obtain ⟨payload, cut⟩ := cuts
    have filled : v ≠ [] := by
      rintro rfl
      cases (cut_iff.mp cut).1
    have empty : Cut v [] ↔ payload = [] := ⟨cut.unique, fun bare => bare ▸ cut⟩
    simp [handedOn_of_cut cut, Hidden, filled, empty]
  · rw [not_exists] at cuts
    simp [handedOn_of_uncut cuts, Hidden, cuts]

theorem handedOn_eq_some_iff : handedOn v = some value ↔
    value ≠ [] ∧ (v = value ∧ (∀ payload, ¬ Cut v payload) ∨ Cut v value) := by
  by_cases cuts : ∃ payload, Cut v payload
  · obtain ⟨payload, cut⟩ := cuts
    rw [handedOn_of_cut cut]
    constructor
    · intro handed
      split at handed
      · cases handed
      case isFalse filled =>
        cases handed
        exact ⟨filled, .inr cut⟩
    · rintro ⟨filled, ⟨-, uncut⟩ | other⟩
      · exact absurd cut (uncut _)
      · obtain rfl := cut.unique other
        exact if_neg filled
  · rw [not_exists] at cuts
    rw [handedOn_of_uncut cuts]
    constructor
    · intro handed
      split at handed
      · cases handed
      case isFalse filled =>
        cases handed
        exact ⟨filled, .inl ⟨rfl, cuts⟩⟩
    · rintro ⟨filled, ⟨rfl, -⟩ | cut⟩
      · exact if_neg filled
      · exact absurd cut (cuts _)

end Handed

theorem filterMap_eq_singleton_iff {α β : Type} {f : α → Option β} {l : List α} {b : β}
    (nodup : l.Nodup) : l.filterMap f = [b] ↔
      ∃ a ∈ l, f a = some b ∧ ∀ other ∈ l, other ≠ a → f other = none := by
  induction l with
  | nil => simp
  | cons x rest ih =>
    obtain ⟨apart, nodup⟩ := nodup_cons.mp nodup
    cases first : f x with
    | none =>
      rw [filterMap_cons_none first, ih nodup]
      constructor
      · rintro ⟨a, mem, found, others⟩
        exact ⟨a, by simp [mem], found, forall_mem_cons.mpr ⟨fun _ => first, others⟩⟩
      · rintro ⟨a, mem, found, others⟩
        rcases mem_cons.mp mem with rfl | later
        · cases first.symm.trans found
        · exact ⟨a, later, found, (forall_mem_cons.mp others).2⟩
    | some value =>
      rw [filterMap_cons_some first, cons_eq_cons, filterMap_eq_nil_iff]
      constructor
      · rintro ⟨rfl, others⟩
        exact ⟨x, by simp, first,
          forall_mem_cons.mpr ⟨(absurd rfl ·), fun a mem _ => others a mem⟩⟩
      · rintro ⟨a, mem, found, others⟩
        obtain rfl : a = x := by
          by_contra other
          cases first.symm.trans (others x (by simp) (Ne.symm other))
        refine ⟨Option.some.inj (first.symm.trans found), fun other later => ?_⟩
        exact others other (by simp [later]) fun same => apart (same ▸ later)

def copies (node : Node) (key : Bytes) : List Bytes :=
  node.mounted.filterMap fun ru => ((node.db ru).get key).bind handedOn

theorem bind_handedOn_eq_none_iff {stored : Option Bytes} :
    stored.bind handedOn = none ↔ ∀ w ∈ stored, Hidden w := by
  cases stored <;> simp [handedOn_eq_none_iff]

theorem copies_eq_iff : copies node key = (node.get key).toList ↔ Exposed node key := by
  cases read : node.get key with
  | none =>
    rw [Option.toList_none, copies, filterMap_eq_nil_iff]
    simp only [bind_handedOn_eq_none_iff]
    exact ⟨.absent read, fun exposed => by
      cases exposed with
      | absent _ hidden => exact hidden
      | whole v live | wrapped v w ru live => cases read.symm.trans live⟩
  | some v =>
    have stored : node.home key ∈ node.mounted ∧ (node.db (node.home key)).get key = some v := by
      rw [Node.get] at read
      split at read
      · exact ⟨by assumption, read⟩
      · cases read
    rw [Option.toList_some, copies, filterMap_eq_singleton_iff node.nodup]
    simp only [bind_handedOn_eq_none_iff, Option.bind_eq_some_iff, handedOn_eq_some_iff]
    constructor
    · rintro ⟨ru, mounted, ⟨w, held, filled, ⟨rfl, uncut⟩ | cut⟩, hidden⟩
      · by_cases here : ru = node.home key
        · exact .whole w read filled uncut (here ▸ hidden)
        · rcases hidden _ stored.1 (Ne.symm here) w stored.2 with empty | cut
          · exact absurd empty filled
          · exact absurd cut (uncut _)
      · exact .wrapped v w ru read filled mounted held cut hidden
    · intro exposed
      cases exposed with
      | absent dead => cases read.symm.trans dead
      | whole other live filled uncut hidden =>
        cases read.symm.trans live
        exact ⟨_, stored.1, ⟨v, stored.2, filled, .inl ⟨rfl, uncut⟩⟩, hidden⟩
      | wrapped other w ru live filled mounted held cut hidden =>
        cases read.symm.trans live
        exact ⟨ru, mounted, ⟨w, held, filled, .inr cut⟩, hidden⟩

/-- **The scan of all units is exact.** A scan that returns no error has called `fn` once for every
live key with the prefix and for no other, exactly when the copies of every such key are exposed as
`Exposed` says. -/
theorem scan_all_units_exact_iff {mountedList : List ReplicaUnit} (errClosed : Error)
    (single : Except Error (Iterator Error))
    (meets : Meets node pre mountedList anyForUnit scanPrefix)
    (clean : (scanPrefixAllUnits fn false true errClosed single mountedList anyForUnit
      scanPrefix).2 = none) :
    Exact node pre (scanPrefixAllUnits fn false true errClosed single mountedList anyForUnit
        scanPrefix).1 ↔
      ∀ key, pre.isPrefixOf key = true → Exposed node key := by
  simp only [← copies_eq_iff]
  have primary : ∀ ru ∈ mountedList, ru.replica = 0 := fun ru listed =>
    node.primary ru (meets.listed.mem_iff.mp listed)
  have same : ∀ ru ∈ mountedList, ∀ other ∈ mountedList, ru.unit = other.unit → ru = other := by
    rintro ⟨unit, replica⟩ listed ⟨unit', replica'⟩ listed' rfl
    obtain rfl := primary _ listed
    obtain rfl := primary _ listed'
    rfl
  have any : ∀ ru ∈ mountedList, anyForUnit ru.unit = some ru := by
    intro ru listed
    obtain ⟨other, mounted, unit, found⟩ := meets.any ru (meets.listed.mem_iff.mp listed)
    rw [found, same other (meets.listed.mem_iff.mpr mounted) ru listed unit]
  have distinct : (mountedList.map ReplicaUnit.unit).Nodup :=
    List.Nodup.map_on same (meets.listed.nodup_iff.mpr node.nodup)
  have entered : scanPrefixAllUnits fn false true errClosed single mountedList anyForUnit
      scanPrefix = scanUnits fn anyForUnit scanPrefix [] mountedList := rfl
  obtain ⟨each, calls⟩ := scanUnits_of_clean (fun _ _ => not_mem_nil) distinct any clean
  have scanned : ∀ ru ∈ mountedList, (entriesOf scanPrefix ru).Perm
      ((node.db ru).scan.filter fun entry => pre.isPrefixOf entry.1) := by
    intro ru listed
    obtain ⟨it, found⟩ := each ru listed
    rw [entriesOf, found]
    exact meets.scans ru it found
  have values : ∀ key, pre.isPrefixOf key = true →
      (valuesOf key (scanUnits fn anyForUnit scanPrefix [] mountedList).1).Perm
        (copies node key) := by
    intro key inside
    have byUnit : valuesOf key (scanUnits fn anyForUnit scanPrefix [] mountedList).1 =
        mountedList.filterMap fun ru => ((node.db ru).get key).bind handedOn := by
      rw [calls, valuesOf, filterMap_flatMap, filterMap_eq_flatMap_toList]
      exact flatMap_congr fun ru listed => valuesOf_handed (scanned ru listed) inside
    rw [byUnit]
    exact meets.listed.filterMap _
  have inPrefix : ∀ call ∈ (scanUnits fn anyForUnit scanPrefix [] mountedList).1,
      pre.isPrefixOf call.1 = true := by
    intro call made
    rw [calls] at made
    obtain ⟨ru, listed, made⟩ := mem_flatMap.mp made
    obtain ⟨entry, found, handed⟩ := mem_filterMap.mp made
    obtain ⟨value, -, rfl⟩ := Option.map_eq_some_iff.mp handed
    exact (mem_filter.mp ((scanned ru listed).mem_iff.mp found)).2
  constructor
  · intro exactly key inside
    rw [← perm_toList_iff, ← exactly.2 key inside]
    exact (values key inside).symm
  · intro clear
    refine ⟨inPrefix, fun key inside => ?_⟩
    rw [← perm_toList_iff, ← clear key inside]
    exact values key inside

end Scan

def nodeOf (gs : GenState) (units : List GenUnit) (nodup : units.Nodup)
    (db : ReplicaUnit → Store Bytes) : Node where
  gs := gs
  hash := fun _ => 0
  mounted := units.map (⟨·, 0⟩)
  nodup := nodup.map fun _ _ same => (ReplicaUnit.mk.inj same).1
  primary := by simp
  db := db

def answers (node : Node) (pre : Bytes) (ru : ReplicaUnit) : Except Unit (Iterator Unit) :=
  .ok ⟨(node.db ru).scan.filter fun entry => pre.isPrefixOf entry.1, none⟩

def scanAll (node : Node) (pre : Bytes) : List (Bytes × Bytes) × Option Unit :=
  scanPrefixAllUnits (fun _ _ => none) false true () (.error ()) node.mounted
    (fun gu => some ⟨gu, 0⟩) (answers node pre)

theorem meets_answers (node : Node) (pre : Bytes) :
    Meets node pre node.mounted (fun gu => some ⟨gu, 0⟩) (answers node pre) where
  listed := .refl _
  any := fun ru mounted => ⟨ru, mounted, rfl, by rw [← node.primary ru mounted]⟩
  scans := by
    rintro ru it same
    cases same
    exact .refl _

def holding (gs : GenState) (units : List GenUnit) (nodup : units.Nodup) (value : Bytes) : Node :=
  nodeOf gs units nodup fun _ => Store.put ∅ [1] value

/-- The keys `[1]` and `[2]` in the two children of a unit that has cut over, where the parent still
holds a bare header under `[1]`. -/
def splitNode : Node where
  gs := ⟨0, .one, some .two, {0}⟩
  hash := fun key => (key.headD 0).toUInt64
  mounted := [⟨⟨0, 0⟩, 0⟩, ⟨⟨1, 0⟩, 0⟩, ⟨⟨1, 1⟩, 0⟩]
  nodup := by decide
  primary := by decide
  db := fun ru =>
    if ru.unit.gen = 0 then Store.put ∅ [1] [0xE0, 0, 0, 0, 0, 0, 0, 0, 0, 0, 0]
    else if ru.unit.id = 0 then Store.put ∅ [2] [8]
    else Store.put ∅ [1] [7]

theorem scan_all_units_exact_split :
    Exact splitNode [] (scanAll splitNode []).1 ∧
      (scanAll splitNode []).1 = [([2], [8]), ([1], [7])] := by
  refine ⟨(scan_all_units_exact_iff () (.error ()) (meets_answers _ []) (by decide)).mpr ?_,
    by decide⟩
  have none : ∀ ru ∈ splitNode.mounted, ∀ key, key ≠ [1] → key ≠ [2] →
      (splitNode.db ru).get key = none := by
    intro ru _ key one two
    simp only [splitNode]
    split_ifs <;> simp [Store.get_put_of_ne, one, two]
  intro key _
  by_cases one : key = [1]
  · subst one
    refine .whole [7] (by decide) (by decide) (fun _ cut => by cases (cut_iff.mp cut).1) ?_
    simp only [← handedOn_eq_none_iff]
    decide
  by_cases two : key = [2]
  · subst two
    refine .whole [8] (by decide) (by decide) (fun _ cut => by cases (cut_iff.mp cut).1) ?_
    simp only [← handedOn_eq_none_iff]
    decide
  · refine .absent ?_ fun ru mounted w held => ?_
    · rw [Node.get]
      split
      · exact none _ (by assumption) key one two
      · rfl
    · cases (none ru mounted key one two).symm.trans held

/-- The raw value that reads as an envelope is handed on without what looks like its header, or
not at all; and while its unit splits, a key is visited in the parent and in the child. -/
theorem scan_all_units_inexact :
    ((holding (.steady 0 .one) [⟨0, 0⟩] (by decide) [0xE0, 0, 0, 0, 0, 0, 0, 0, 0, 0, 0, 7]).get
        [1] = some [0xE0, 0, 0, 0, 0, 0, 0, 0, 0, 0, 0, 7] ∧
      scanAll (holding (.steady 0 .one) [⟨0, 0⟩] (by decide)
        [0xE0, 0, 0, 0, 0, 0, 0, 0, 0, 0, 0, 7]) [] = ([([1], [7])], none)) ∧
    ((holding (.steady 0 .one) [⟨0, 0⟩] (by decide) [0xE0, 0, 0, 0, 0, 0, 0, 0, 0, 0, 0]).get
        [1] = some [0xE0, 0, 0, 0, 0, 0, 0, 0, 0, 0, 0] ∧
      scanAll (holding (.steady 0 .one) [⟨0, 0⟩] (by decide)
        [0xE0, 0, 0, 0, 0, 0, 0, 0, 0, 0, 0]) [] = ([], none)) ∧
    scanAll (holding ((GenState.steady 0 .one).enter .two) [⟨0, 0⟩, ⟨1, 0⟩] (by decide) [7]) [] =
      ([([1], [7]), ([1], [7])], none) := by
  decide

end Shale.AllUnits
