import Mathlib.Data.Finset.Sort
import Shale.Foundation.Marks
import Shale.Membership.Locate

/-!
# The ring and its hash

`Ring` of `pkg/ring` keeps its members beside a consistent hash of them, which every membership
change builds anew. A build that panics is recovered from and leaves the hash as it was, so that
a lookup may name a member that has left.

What the ring hashes of a unit is its encoding of twelve bytes, unless a hash tag is found in it.
-/

namespace Shale.Membership

open List

/-- The tag stands between the first opening brace and the first closing one after it. -/
def Tagged (tag key : Bytes) : Prop :=
  ∃ front back, key = front ++ 0x7b :: (tag ++ 0x7d :: back) ∧ 0x7b ∉ front ∧ 0x7d ∉ tag

def Untagged (key : Bytes) : Prop := ∀ tag, Tagged tag key → tag = []

variable {key : Bytes}

theorem shardKey_of_tagged {tag : Bytes} (tagged : Tagged tag key) (filled : tag ≠ []) :
    shardKey key = tag := by
  obtain ⟨front, back, rfl, opens, closes⟩ := tagged
  simp only [shardKey, Marks.dropWhile_append opens, Marks.takeWhile_append closes]
  simp [filled]

theorem shardKey_eq_self_iff : shardKey key = key ↔ Untagged key := by
  constructor
  · intro whole tag tagged
    by_contra filled
    rw [shardKey_of_tagged tagged filled] at whole
    obtain ⟨front, back, made, -⟩ := tagged
    have longer := congrArg List.length (whole.trans made)
    simp at longer
    omega
  · intro untagged
    unfold shardKey
    split
    · rfl
    case h_2 first rest found =>
      dsimp only
      split
      · rfl
      case isFalse cut =>
        rw [not_or] at cut
        cases closing : rest.dropWhile fun byte => byte ≠ 0x7d with
        | nil =>
          have whole := takeWhile_append_dropWhile (p := fun byte => byte ≠ 0x7d) (l := rest)
          rw [closing, append_nil] at whole
          exact absurd (congrArg List.length whole) cut.1
        | cons last back =>
          refine absurd (untagged _ ⟨_, back, ?_, Marks.notMem_takeWhile 0x7b key,
            Marks.notMem_takeWhile 0x7d rest⟩) cut.2
          rw [← Marks.eq_append closing]
          exact Marks.eq_append found

theorem genUnitBytes_injective {u v : GenUnit} (gen : u.gen < 2 ^ 64) (gen' : v.gen < 2 ^ 64)
    (id : u.id < maxUnitCount) (id' : v.id < maxUnitCount)
    (same : genUnitBytes u = genUnitBytes v) : u = v := by
  obtain ⟨gens, ids⟩ := append_inj same (by simp)
  have wide : maxUnitCount < 256 ^ 4 := by decide
  have gens := congrArg Wire.ofBigEndian gens
  have ids := congrArg Wire.ofBigEndian ids
  rw [Wire.ofBigEndian_bigEndian (by simpa using gen),
    Wire.ofBigEndian_bigEndian (by simpa using gen')] at gens
  rw [Wire.ofBigEndian_bigEndian (id.trans wide),
    Wire.ofBigEndian_bigEndian (id'.trans wide)] at ids
  cases u
  cases v
  cases gens
  cases ids
  rfl

/-- **What the ring hashes of a unit.** It is the encoding of the unit exactly if that has no tag
other than an empty one, and units whose encodings have none present different inputs. -/
theorem unit_ring_input_iff (u v : GenUnit) (gen : u.gen < 2 ^ 64) (gen' : v.gen < 2 ^ 64)
    (id : u.id < maxUnitCount) (id' : v.id < maxUnitCount) :
    (shardKey (genUnitBytes u) = genUnitBytes u ↔ Untagged (genUnitBytes u)) ∧
      (Untagged (genUnitBytes u) → Untagged (genUnitBytes v) → u ≠ v →
        shardKey (genUnitBytes u) ≠ shardKey (genUnitBytes v)) := by
  refine ⟨shardKey_eq_self_iff, fun plain plain' differ same => ?_⟩
  rw [shardKey_eq_self_iff.mpr plain, shardKey_eq_self_iff.mpr plain'] at same
  exact differ (genUnitBytes_injective gen gen' id id' same)

theorem unit_ring_input_first :
    Untagged (genUnitBytes ⟨0, 0⟩) ∧ Untagged (genUnitBytes ⟨0, 1⟩) ∧
      shardKey (genUnitBytes ⟨0, 0⟩) ≠ shardKey (genUnitBytes ⟨0, 1⟩) := by
  have first := unit_ring_input_iff ⟨0, 0⟩ ⟨0, 1⟩ (by decide) (by decide) (by decide) (by decide)
  have second := unit_ring_input_iff ⟨0, 1⟩ ⟨0, 0⟩ (by decide) (by decide) (by decide) (by decide)
  have plain := first.1.mp (by decide)
  have plain' := second.1.mp (by decide)
  exact ⟨plain, plain', first.2 plain plain' (by decide)⟩

/-- The bytes of generation 0x7b007d hold a tag, a zero byte, whatever the unit. -/
theorem unit_ring_inputs_collide :
    shardKey (genUnitBytes ⟨0x7b007d, 0⟩) = [0] ∧ shardKey (genUnitBytes ⟨0x7b007d, 1⟩) = [0] := by
  decide

/-- What a lookup of `count` members answers on the hash of these IDs: as many distinct ones of
them, or an error if there are fewer. -/
def Chooses (ids : Finset String) (count : Nat) (answer : Option (List String)) : Prop :=
  (count ≤ ids.card → ∃ names, answer = some names ∧ names.Nodup ∧ names.length = count ∧
    ∀ name ∈ names, name ∈ ids) ∧ (ids.card < count → answer = none)

/-- The lookups of the consistent-hash library, as functions of the IDs of the members. -/
structure Library where
  closestN : ClosestN
  closestNForPartition : Finset String → Nat → Nat → Option (List String)
  closestN_chooses : ∀ ids key count, Chooses ids count (closestN ids key count)
  partition_chooses : ∀ ids partition count,
    Chooses ids count (closestNForPartition ids partition count)

/-- A library that names the members in one order, whatever is looked up. -/
def Library.ofOrder (order : Finset String → List String) (distinct : ∀ ids, (order ids).Nodup)
    (mem : ∀ ids name, name ∈ order ids ↔ name ∈ ids) : Library :=
  let closest (ids : Finset String) (count : Nat) : Option (List String) :=
    if count ≤ ids.card then some ((order ids).take count) else none
  have chooses : ∀ ids count, Chooses ids count (closest ids count) := by
    refine fun ids count => ⟨fun many => ?_, fun few => if_neg (Nat.not_le.mpr few)⟩
    have all : (order ids).length = ids.card := by
      rw [← toFinset_card_of_nodup (distinct ids)]
      congr
      ext name
      rw [mem_toFinset, mem]
    refine ⟨_, if_pos many, (take_sublist _ _).nodup (distinct ids), ?_, ?_⟩
    · simpa [all] using many
    · exact fun name listed => (mem ids name).mp (mem_of_mem_take listed)
  { closestN := fun ids _ => closest ids
    closestNForPartition := fun ids _ => closest ids
    closestN_chooses := fun ids _ => chooses ids
    partition_chooses := fun ids _ => chooses ids }

/-- `hashed` are the IDs that the hash was built from. `panicked` says of the last rebuild
whether it has been recovered from. -/
structure HashRing where
  members : Ring
  hashed : Finset String
  panicked : Bool

namespace HashRing

def partitionCount : Nat := 271

def new : HashRing := ⟨[], ∅, false⟩

def ids (r : HashRing) : Finset String := (r.members.map Node.id).toFinset

section Updates

variable (builds : Finset String → Bool)

/-- `builds` tells whether the library builds the hash of these IDs, or panics. -/
def rebuildHashLocked (r : HashRing) : HashRing :=
  if r.members = [] then { r with hashed := ∅, panicked := false }
  else if builds r.ids then { r with hashed := r.ids, panicked := false }
  else { r with panicked := true }

def add (r : HashRing) (m : Node) : HashRing :=
  rebuildHashLocked builds { r with members := r.members.add m }

def remove (r : HashRing) (id : String) : HashRing :=
  if id ∉ r.ids then r
  else rebuildHashLocked builds { r with members := r.members.filter fun m => m.id ≠ id }

inductive Op where
  | add (m : Node)
  | remove (id : String)

def step (r : HashRing) : Op → HashRing
  | .add m => r.add builds m
  | .remove id => r.remove builds id

def run (ops : List Op) : HashRing := ops.foldl (step builds) new

end Updates

def named (r : HashRing) (n : Int) (closest : Nat → Option (List String)) : List String :=
  if n ≤ 0 ∨ r.members = [] then []
  else (closest (min n.toNat r.members.length)).getD []

variable (lib : Library)

def keyIDs (r : HashRing) (key : Bytes) (n : Int) : List String :=
  r.named n (lib.closestN r.hashed (shardKey key))

def partitionIDs (r : HashRing) (partition : Nat) (n : Int) : List String :=
  if partitionCount ≤ partition then []
  else r.named n (lib.closestNForPartition r.hashed partition)

def locateKeyN (r : HashRing) (key : Bytes) (n : Int) : List Node :=
  (r.keyIDs lib key n).map r.members.get

def replicasForPartition (r : HashRing) (partition : Nat) (n : Int) : List Node :=
  (r.partitionIDs lib partition n).map r.members.get

/-- Members have different IDs, and the hash is theirs unless the last rebuild has panicked, which
the one of an empty ring does not. -/
structure Kept (r : HashRing) : Prop where
  distinct : (r.members.map Node.id).Nodup
  fresh : r.panicked = false → r.hashed = r.ids
  manned : r.hashed ≠ ∅ → r.members ≠ []

variable {r : HashRing} {builds : Finset String → Bool} {lib : Library}

theorem kept_rebuild (distinct : (r.members.map Node.id).Nodup) :
    Kept (rebuildHashLocked builds r) := by
  unfold rebuildHashLocked
  split
  case isTrue none => exact ⟨distinct, fun _ => by simp [ids, none], fun some => absurd rfl some⟩
  case isFalse some =>
    split
    · exact ⟨distinct, fun _ => rfl, fun _ => some⟩
    · exact ⟨distinct, nofun, fun _ => some⟩

theorem Kept.step (kept : Kept r) (op : Op) : Kept (step builds r op) := by
  have filtered : ∀ id, ((r.members.filter fun m => m.id ≠ id).map Node.id).Nodup :=
    fun id => (filter_sublist.map Node.id).nodup kept.distinct
  cases op with
  | add m =>
    refine kept_rebuild ?_
    simp only [Ring.add, map_append, map_cons, map_nil]
    refine nodup_append.mpr ⟨filtered m.id, nodup_singleton _, ?_⟩
    rintro id listed other single rfl
    obtain ⟨old, mem, rfl⟩ := mem_map.mp listed
    exact of_decide_eq_true (mem_filter.mp mem).2 (mem_singleton.mp single)
  | remove id =>
    simp only [HashRing.step, remove]
    split
    · exact kept
    · exact kept_rebuild (filtered id)

theorem kept_run (ops : List Op) : Kept (run builds ops) := by
  unfold run
  generalize begun : new = r
  have kept : Kept r := begun ▸ ⟨nodup_nil, fun _ => rfl, fun some => absurd rfl some⟩
  clear begun
  induction ops generalizing r with
  | nil => exact kept
  | cons op rest ih => exact ih _ (kept.step op)

variable {closest : Nat → Option (List String)}

theorem nodup_named (r : HashRing) (n : Int)
    (chooses : ∀ count, Chooses r.hashed count (closest count)) : (r.named n closest).Nodup := by
  unfold named
  split
  · exact nodup_nil
  · rcases Nat.lt_or_ge r.hashed.card (min n.toNat r.members.length) with few | many
    · simp [(chooses _).2 few]
    · obtain ⟨names, answered, distinct, -⟩ := (chooses _).1 many
      simpa [answered] using distinct

theorem length_named_of_fresh (kept : Kept r) (fresh : r.panicked = false) {n : Int}
    (chooses : ∀ count, Chooses r.hashed count (closest count)) :
    (r.named n closest).length = min n.toNat r.members.length := by
  have card : r.hashed.card = r.members.length := by
    rw [kept.fresh fresh, ids, toFinset_card_of_nodup kept.distinct, length_map]
  unfold named
  split
  case isTrue none =>
    rcases none with none | none
    · simp [Int.toNat_of_nonpos none]
    · simp [none]
  case isFalse =>
    obtain ⟨names, answered, -, length, -⟩ :=
      (chooses (min n.toNat r.members.length)).1 ((Nat.min_le_right _ _).trans_eq card.symm)
    rw [answered]
    exact length

def Current (r : HashRing) (entries : List Node) : Prop :=
  entries.Nodup ∧ ∀ m ∈ entries, m ∈ r.members ∧ m ≠ ⟨"", ""⟩

def Known (r : HashRing) (id : String) : Prop := ∃ m ∈ r.members, m.id = id ∧ m ≠ ⟨"", ""⟩

theorem get_of_mem (kept : Kept r) {m : Node} (mem : m ∈ r.members) : r.members.get m.id = m := by
  unfold Ring.get
  cases found : r.members.find? fun node => node.id = m.id with
  | none => simpa using List.find?_eq_none.mp found m mem
  | some other =>
    have same : other.id = m.id := by simpa using List.find?_some found
    exact inj_on_of_nodup_map kept.distinct (mem_of_find?_eq_some found) mem same

theorem current_map_get_iff (kept : Kept r) {names : List String} (distinct : names.Nodup) :
    r.Current (names.map r.members.get) ↔ ∀ id ∈ names, r.Known id := by
  constructor
  · intro current id listed
    obtain ⟨-, proper⟩ := current.2 _ (mem_map_of_mem listed)
    unfold Ring.get at proper
    cases found : r.members.find? fun node => node.id = id with
    | none => simp [found] at proper
    | some m =>
      have same : m.id = id := by simpa using List.find?_some found
      exact ⟨m, mem_of_find?_eq_some found, same, by simpa [found] using proper⟩
  · intro known
    have got : ∀ id ∈ names, (r.members.get id).id = id ∧ r.members.get id ∈ r.members ∧
        r.members.get id ≠ ⟨"", ""⟩ := by
      intro id listed
      obtain ⟨m, mem, rfl, proper⟩ := known id listed
      rw [get_of_mem kept mem]
      exact ⟨rfl, mem, proper⟩
    refine ⟨distinct.map_on fun a first b second same => ?_, fun m entry => ?_⟩
    · rw [← (got a first).1, same, (got b second).1]
    · obtain ⟨id, listed, rfl⟩ := mem_map.mp entry
      exact (got id listed).2

/-- What the lookups return with this library: distinct current members, and as many as there are
to return unless the last rebuild has panicked. -/
structure NamesMembers (r : HashRing) (lib : Library) : Prop where
  key : ∀ key n, r.Current (r.locateKeyN lib key n)
  partition : ∀ partition n, r.Current (r.replicasForPartition lib partition n)
  key_length : r.panicked = false → ∀ key n,
    (r.locateKeyN lib key n).length = min n.toNat r.members.length
  partition_length : r.panicked = false → ∀ partition < partitionCount, ∀ n,
    (r.replicasForPartition lib partition n).length = min n.toNat r.members.length

theorem mem_hashed_of_mem_named {n : Int}
    (chooses : ∀ count, Chooses r.hashed count (closest count)) {id : String}
    (listed : id ∈ r.named n closest) : id ∈ r.hashed := by
  unfold named at listed
  split at listed
  · cases listed
  · rcases Nat.lt_or_ge r.hashed.card (min n.toNat r.members.length) with few | many
    · simp [(chooses _).2 few] at listed
    · obtain ⟨names, answered, -, -, inside⟩ := (chooses _).1 many
      exact inside id (by simpa [answered] using listed)

theorem namesMembers_of_known (kept : Kept r) (known : ∀ id ∈ r.hashed, r.Known id)
    (lib : Library) : r.NamesMembers lib := by
  have byKey := fun key => lib.closestN_chooses r.hashed (shardKey key)
  have byPartition := fun partition => lib.partition_chooses r.hashed partition
  refine ⟨fun key n => ?_, fun partition n => ?_, fun fresh key n => ?_,
    fun fresh partition within n => ?_⟩
  · exact (current_map_get_iff kept (r.nodup_named n (byKey key))).mpr
      fun id listed => known id (mem_hashed_of_mem_named (byKey key) listed)
  · unfold replicasForPartition partitionIDs
    split
    · exact ⟨nodup_nil, nofun⟩
    · exact (current_map_get_iff kept (r.nodup_named n (byPartition partition))).mpr
        fun id listed => known id (mem_hashed_of_mem_named (byPartition partition) listed)
  · rw [locateKeyN, length_map]
    exact length_named_of_fresh kept fresh (byKey key)
  · rw [replicasForPartition, length_map, partitionIDs, if_neg (Nat.not_le.mpr within)]
    exact length_named_of_fresh kept fresh (byPartition partition)

/-- A library that names `id` first wherever it can. -/
def preferring (id : String) : Library :=
  .ofOrder (fun ids => if id ∈ ids then id :: (ids.erase id).sort else ids.sort)
    (fun ids => by
      split
      · exact nodup_cons.mpr ⟨by simp, Finset.sort_nodup _ _⟩
      · exact Finset.sort_nodup _ _)
    fun ids name => by
      split
      case isTrue mem => by_cases same : name = id <;> simp [same, mem]
      case isFalse => simp

/-- **Lookups name current members**, whatever the library, exactly if the IDs that the hash was
last built from without a panic are those of current members. -/
theorem ring_names_members_iff (builds : Finset String → Bool) (ops : List Op) :
    let r := run builds ops
    ((∀ lib, r.NamesMembers lib) ↔ ∀ id ∈ r.hashed, r.Known id) ∧
      (r.panicked = false → ⟨"", ""⟩ ∉ r.members → ∀ id ∈ r.hashed, r.Known id) := by
  intro r
  have kept : Kept r := kept_run ops
  refine ⟨⟨fun names id mem => ?_, namesMembers_of_known kept⟩, fun fresh proper id mem => ?_⟩
  · have named : r.keyIDs (preferring id) [] 1 = [id] := by
      have some : ∃ m rest, r.members = m :: rest :=
        exists_cons_of_ne_nil (kept.manned (Finset.ne_empty_of_mem mem))
      obtain ⟨m, rest, members⟩ := some
      have one : 1 ≤ r.hashed.card := Finset.card_pos.mpr ⟨id, mem⟩
      simp [keyIDs, HashRing.named, members, preferring, Library.ofOrder, mem, one]
    have current := (names (preferring id)).key [] 1
    rw [locateKeyN, named] at current
    exact (current_map_get_iff kept (nodup_singleton id)).mp current id (by simp)
  · rw [kept.fresh fresh, ids, mem_toFinset] at mem
    obtain ⟨m, held, rfl⟩ := mem_map.mp mem
    exact ⟨m, held, rfl, fun zero => proper (zero ▸ held)⟩

/-- With `b` removed and the rebuild recovered from, a lookup returns the zero `Member`. -/
theorem ring_names_departed :
    let r := run (fun ids => ids.card ≠ 1) [.add ⟨"a", "x"⟩, .add ⟨"b", "y"⟩, .remove "b"]
    r.members = [⟨"a", "x"⟩] ∧ r.hashed = {"b", "a"} ∧
      ∀ key, r.locateKeyN (preferring "b") key 1 = [⟨"", ""⟩] := by
  intro r
  have members : r.members = [⟨"a", "x"⟩] := by rfl
  have hashed : r.hashed = {"b", "a"} := by decide
  refine ⟨members, hashed, fun key => ?_⟩
  rw [locateKeyN, keyIDs, named, hashed, members]
  simp [preferring, Library.ofOrder, Ring.get]

end HashRing

end Shale.Membership
