import Shale.Foundation.Marks
import Shale.Slate.ServingMarker
import Shale.Storage.Store

/-!
# Database names

`dbname.go`: a mount's database lives under a name made of its generation and unit in decimal,
with a segment for the replica position where the mount is one of several, and its serving marker
beside the database. All mounts of a cluster share one bucket.
-/

namespace Shale.Slate

/-- `storageunit.MountRef`. The constructors of the source put a sole mount at position 0; the
fields are a `uint64` and a `uint32`. -/
structure MountRef where
  ru : ReplicaUnit
  replicated : Bool
  sole : replicated = false → ru.replica = 0
  gen_lt : ru.unit.gen < 2 ^ 64
  id_lt : ru.unit.id < 2 ^ 32

def slash : UInt8 := 47

/-- `u/`. -/
def unitPrefix : Bytes := [117, slash]

def unitPath (gu : GenUnit) : Bytes := 103 :: (decimal gu.gen ++ slash :: 117 :: decimal gu.id)

def dbNameFor (keyPrefix : Bytes) (gu : GenUnit) : Bytes := keyPrefix ++ unitPrefix ++ unitPath gu

def dbNameReplicaFor (keyPrefix : Bytes) (ru : ReplicaUnit) : Bytes :=
  dbNameFor keyPrefix ru.unit ++ slash :: 114 :: decimal ru.replica.toNat

def dbNameForRef (keyPrefix : Bytes) (r : MountRef) : Bytes :=
  if r.replicated then dbNameReplicaFor keyPrefix r.ru else dbNameFor keyPrefix r.ru.unit

def servingMarkerKeyForRef (keyPrefix : Bytes) (r : MountRef) : Bytes :=
  dbNameForRef keyPrefix r ++ [slash, 115, 101, 114, 118, 105, 110, 103]

def parseUnitKey (rel : Bytes) : Option GenUnit :=
  match rel.dropWhile fun byte => byte ≠ slash with
  | [] => none
  | _ :: rest =>
    match rel.takeWhile fun byte => byte ≠ slash, rest.takeWhile fun byte => byte ≠ slash with
    | 103 :: gen, 117 :: id => do
      let gen ← parseUint gen
      let id ← (parseUint id).filter fun id => id < 2 ^ 32
      pure ⟨gen, id⟩
    | _, _ => none

theorem slash_notMem_decimal (n : Nat) : slash ∉ decimal n :=
  fun listed => absurd (mem_decimal listed) (by decide)

theorem decimal_inj {m n : Nat} (small : m < 2 ^ 64) (small' : n < 2 ^ 64)
    (same : decimal m = decimal n) : m = n := by
  have parsed := parseUint_decimal small
  rw [same, parseUint_decimal small'] at parsed
  exact (Option.some.inj parsed).symm

def MountRef.segments (r : MountRef) (below : Bytes) : Bytes :=
  if r.replicated then 114 :: (decimal r.ru.replica.toNat ++ slash :: below) else below

theorem dbNameForRef_append (keyPrefix : Bytes) (r : MountRef) (below : Bytes) :
    dbNameForRef keyPrefix r ++ slash :: below = keyPrefix ++ unitPrefix ++
      103 :: (decimal r.ru.unit.gen ++
        slash :: 117 :: (decimal r.ru.unit.id ++ slash :: r.segments below)) := by
  unfold dbNameForRef MountRef.segments dbNameReplicaFor dbNameFor unitPath
  split <;> simp

theorem unit_of_append_eq {keyPrefix below below' : Bytes} {r r' : MountRef}
    (same : dbNameForRef keyPrefix r ++ slash :: below =
      dbNameForRef keyPrefix r' ++ slash :: below') :
    r.ru.unit = r'.ru.unit ∧ r.segments below = r'.segments below' := by
  rw [dbNameForRef_append, dbNameForRef_append, List.append_cancel_left_eq] at same
  obtain ⟨gens, rest⟩ := Marks.append_inj (slash_notMem_decimal _) (slash_notMem_decimal _)
    (List.cons.inj same).2
  obtain ⟨ids, tails⟩ := Marks.append_inj (slash_notMem_decimal _) (slash_notMem_decimal _)
    (List.cons.inj rest).2
  have wide : 2 ^ 32 < 2 ^ 64 := by decide
  refine ⟨?_, tails⟩
  rw [GenUnit.mk.injEq]
  exact ⟨decimal_inj r.gen_lt r'.gen_lt gens,
    decimal_inj (r.id_lt.trans wide) (r'.id_lt.trans wide) ids⟩

theorem MountRef.eq_of_parts {r r' : MountRef} (units : r.ru.unit = r'.ru.unit)
    (replicas : r.ru.replica = r'.ru.replica) (layouts : r.replicated = r'.replicated) :
    r = r' := by
  obtain ⟨⟨unit', replica'⟩, replicated', _, _, _⟩ := r'
  cases units
  cases replicas
  cases layouts
  rfl

theorem eq_of_append_eq {keyPrefix below below' : Bytes} {r r' : MountRef}
    (layouts : r.replicated = r'.replicated) (same : dbNameForRef keyPrefix r ++ slash :: below =
      dbNameForRef keyPrefix r' ++ slash :: below') : r = r' := by
  obtain ⟨units, tails⟩ := unit_of_append_eq same
  refine MountRef.eq_of_parts units ?_ layouts
  cases replicated : r.replicated with
  | false => rw [r.sole replicated, r'.sole (layouts ▸ replicated)]
  | true =>
    rw [MountRef.segments, MountRef.segments, if_pos replicated,
      if_pos (layouts ▸ replicated)] at tails
    obtain ⟨replicas, -⟩ := Marks.append_inj (slash_notMem_decimal _) (slash_notMem_decimal _)
      (List.cons.inj tails).2
    have byte : ∀ replica : UInt8, replica.toNat < 2 ^ 64 :=
      fun replica => replica.toNat_lt.trans (by decide)
    exact UInt8.toNat_inj.mp (decimal_inj (byte _) (byte _) replicas)

theorem dbNameForRef_inj {keyPrefix : Bytes} {r r' : MountRef}
    (same : dbNameForRef keyPrefix r = dbNameForRef keyPrefix r') : r = r' := by
  have below := congrArg (· ++ slash :: []) same
  refine eq_of_append_eq ?_ below
  have tails := (unit_of_append_eq below).2
  unfold MountRef.segments at tails
  cases replicated : r.replicated <;> cases replicated' : r'.replicated <;>
    simp [replicated, replicated'] at tails ⊢

theorem servingMarkerKeyForRef_ne (keyPrefix : Bytes) (r r' : MountRef) :
    servingMarkerKeyForRef keyPrefix r ≠ dbNameForRef keyPrefix r' := by
  intro same
  have below : dbNameForRef keyPrefix r ++ slash :: [115, 101, 114, 118, 105, 110, 103, slash] =
      dbNameForRef keyPrefix r' ++ slash :: [] := by
    rw [← same, servingMarkerKeyForRef]
    simp
  have tails := (unit_of_append_eq below).2
  unfold MountRef.segments at tails
  cases replicated : r.replicated <;> cases replicated' : r'.replicated <;>
    simp only [replicated, replicated', Bool.false_eq_true, ↓reduceIte] at tails
  · cases tails
  · cases tails
  · cases tails
  · have rest := Marks.append_inj (slash_notMem_decimal _) (slash_notMem_decimal _)
      (List.cons.inj tails).2
    cases rest.2

theorem parseUnitKey_below (keyPrefix : Bytes) (r : MountRef) (below : Bytes) :
    parseUnitKey ((dbNameForRef keyPrefix r ++ slash :: below).drop
      (keyPrefix ++ unitPrefix).length) = some r.ru.unit := by
  have gens : slash ∉ 103 :: decimal r.ru.unit.gen := by
    simpa using ⟨by decide, slash_notMem_decimal _⟩
  have ids : slash ∉ 117 :: decimal r.ru.unit.id := by
    simpa using ⟨by decide, slash_notMem_decimal _⟩
  have wide : 2 ^ 32 < 2 ^ 64 := by decide
  rw [dbNameForRef_append, List.drop_left, ← List.cons_append, ← List.cons_append, parseUnitKey,
    Marks.dropWhile_append gens, Marks.takeWhile_append gens]
  simp only [Marks.takeWhile_append ids, parseUint_decimal r.gen_lt,
    parseUint_decimal (r.id_lt.trans wide)]
  have small : r.ru.unit.id < 4294967296 := r.id_lt
  simp [Option.filter, small]

/-- **Names never alias.** Different mounts have different databases and markers, a marker is
never a database name, databases of one layout occupy disjoint subtrees, and a key below a name
parses back to the mount's unit. -/
theorem object_names_never_alias (keyPrefix : Bytes) (r : MountRef) :
    (∀ r', r ≠ r' → dbNameForRef keyPrefix r ≠ dbNameForRef keyPrefix r' ∧
      servingMarkerKeyForRef keyPrefix r ≠ servingMarkerKeyForRef keyPrefix r') ∧
    (∀ r', servingMarkerKeyForRef keyPrefix r ≠ dbNameForRef keyPrefix r') ∧
    (∀ r', r ≠ r' → r.replicated = r'.replicated →
      ¬ dbNameForRef keyPrefix r ++ [slash] <+: dbNameForRef keyPrefix r' ++ [slash]) ∧
    ∀ below, parseUnitKey ((dbNameForRef keyPrefix r ++ slash :: below).drop
      (keyPrefix ++ unitPrefix).length) = some r.ru.unit := by
  refine ⟨fun r' differ => ⟨fun same => differ (dbNameForRef_inj same), fun same => ?_⟩,
    servingMarkerKeyForRef_ne keyPrefix r, fun r' differ layouts => ?_,
    parseUnitKey_below keyPrefix r⟩
  · exact differ (dbNameForRef_inj (List.append_cancel_right same))
  · rintro ⟨below, same⟩
    rw [List.append_assoc] at same
    exact differ (eq_of_append_eq layouts same)

end Shale.Slate
