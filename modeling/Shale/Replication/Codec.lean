import Mathlib.Algebra.Order.Group.Nat
import Mathlib.Data.List.Lex
import Mathlib.Data.Prod.Lex
import Shale.Storage.Store

/-!
# The bytes of an envelope

`envelope.go`: a value of a replicated position is stored as
`magic(1) | timestamp_be(8) | nodeid_len_be(2) | nodeid | payload`. Bytes without the magic are
values from before envelopes existed and count as a payload with the zero stamp; bytes with the
magic and a broken header do not decode.
-/

namespace Shale.Wire

structure Stamp where
  timestampNanos : Nat
  nodeID : Bytes
deriving DecidableEq

namespace Stamp

def zero : Stamp := ⟨0, []⟩

/-- The order of stamps: by timestamp, then by the bytes of the node id. -/
instance : LinearOrder Stamp :=
  LinearOrder.lift' (fun stamp => toLex (stamp.timestampNanos, stamp.nodeID.map UInt8.toNat))
    fun a b same => by
      obtain ⟨stamps, ids⟩ := Prod.mk.inj (congrArg ofLex same)
      exact congrArg₂ Stamp.mk stamps
        (List.map_injective_iff.mpr (fun _ _ => UInt8.toNat_inj.mp) ids)

def greater (a b : Stamp) : Bool :=
  if a.timestampNanos ≠ b.timestampNanos then decide (a.timestampNanos > b.timestampNanos)
  else decide (a.nodeID.map UInt8.toNat > b.nodeID.map UInt8.toNat)

theorem greater_iff {a b : Stamp} : a.greater b = true ↔ b < a := by
  have unfolded : b < a ↔ b.timestampNanos < a.timestampNanos ∨
      b.timestampNanos = a.timestampNanos ∧
        b.nodeID.map UInt8.toNat < a.nodeID.map UInt8.toNat := Prod.Lex.toLex_lt_toLex
  rw [unfolded, greater]
  split
  case isTrue apart =>
    rw [decide_eq_true_eq]
    omega
  case isFalse same =>
    have same := not_not.mp same
    simp [same]

end Stamp

structure Envelope where
  stamp : Stamp
  payload : Bytes
deriving DecidableEq

def envelopeMagic : UInt8 := 0xE0

def bigEndian : Nat → Nat → Bytes
  | 0, _ => []
  | width + 1, n => bigEndian width (n / 256) ++ [UInt8.ofNat n]

def ofBigEndian (bytes : Bytes) : Nat := bytes.foldl (fun n byte => n * 256 + byte.toNat) 0

def encode (env : Envelope) : Bytes :=
  envelopeMagic :: (bigEndian 8 env.stamp.timestampNanos ++
    (bigEndian 2 env.stamp.nodeID.length ++ (env.stamp.nodeID ++ env.payload)))

def decodeStamp (b : Bytes) : Except String (Stamp × Nat) :=
  if b.head? ≠ some envelopeMagic then .ok (.zero, 0)
  else if b.length < 1 + 8 + 2 then .error "cluster: envelope header truncated"
  else
    let idLen := ofBigEndian ((b.drop 9).take 2)
    if 11 + idLen > b.length then
      .error ("cluster: envelope nodeID length " ++ toString idLen ++ " overruns buffer of " ++
        toString b.length ++ " bytes")
    else .ok (⟨ofBigEndian ((b.drop 1).take 8), (b.drop 11).take idLen⟩, 11 + idLen)

def decode (b : Bytes) : Except String Envelope :=
  match decodeStamp b with
  | .error err => .error err
  | .ok (stamp, start) => if start = 0 then .ok ⟨.zero, b⟩ else .ok ⟨stamp, b.drop start⟩

variable {stamp : Stamp} {start : Nat} {b : Bytes}

theorem decodeStamp_ok (found : decodeStamp b = .ok (stamp, start)) :
    b.head? ≠ some envelopeMagic ∧ stamp = .zero ∧ start = 0 ∨
      b.head? = some envelopeMagic ∧ 11 ≤ start := by
  unfold decodeStamp at found
  split at found
  case isTrue unmarked =>
    cases found
    exact .inl ⟨unmarked, rfl, rfl⟩
  case isFalse marked =>
    refine .inr ⟨not_not.mp marked, ?_⟩
    split at found
    · cases found
    · dsimp only at found
      split at found
      · cases found
      · cases found
        exact Nat.le_add_right 11 _

theorem decode_eq (found : decodeStamp b = .ok (stamp, start)) :
    decode b = .ok ⟨stamp, b.drop start⟩ := by
  rw [decode, found]
  rcases decodeStamp_ok found with ⟨-, rfl, rfl⟩ | ⟨-, header⟩
  · rfl
  · exact if_neg (by omega)

@[simp] theorem length_bigEndian (width n : Nat) : (bigEndian width n).length = width := by
  induction width generalizing n with
  | zero => rfl
  | succ width ih => simp [bigEndian, ih]

theorem ofBigEndian_concat (bytes : Bytes) (byte : UInt8) :
    ofBigEndian (bytes ++ [byte]) = ofBigEndian bytes * 256 + byte.toNat := by
  simp [ofBigEndian]

theorem ofBigEndian_bigEndian {width n : Nat} (fits : n < 256 ^ width) :
    ofBigEndian (bigEndian width n) = n := by
  induction width generalizing n with
  | zero =>
    have none_left : n = 0 := by simpa using fits
    rw [none_left]
    rfl
  | succ width ih =>
    have upper : n / 256 < 256 ^ width := by
      rw [Nat.div_lt_iff_lt_mul (by decide)]
      simpa [Nat.pow_succ] using fits
    rw [bigEndian, ofBigEndian_concat, ih upper]
    simp
    omega

theorem drop_header (env : Envelope) : (encode env).drop 11 = env.stamp.nodeID ++ env.payload := by
  have eight : (bigEndian 8 env.stamp.timestampNanos).drop 10 = [] :=
    List.drop_eq_nil_of_le (by simp)
  simp [encode, List.drop_append, eight]

theorem decodeStamp_encode {env : Envelope} (timestamp : env.stamp.timestampNanos < 2 ^ 64)
    (nodeID : env.stamp.nodeID.length < 2 ^ 16) :
    decodeStamp (encode env) = .ok (env.stamp, 11 + env.stamp.nodeID.length) := by
  have eight : ofBigEndian (bigEndian 8 env.stamp.timestampNanos) = env.stamp.timestampNanos :=
    ofBigEndian_bigEndian (by simpa using timestamp)
  have two : ofBigEndian (bigEndian 2 env.stamp.nodeID.length) = env.stamp.nodeID.length :=
    ofBigEndian_bigEndian (by simpa using nodeID)
  have header : ¬ (encode env).length < 1 + 8 + 2 := by
    simp [encode]
    omega
  have length_at : ((encode env).drop 9).take 2 = bigEndian 2 env.stamp.nodeID.length := by
    simp [encode]
  have stamp_at : ((encode env).drop 1).take 8 = bigEndian 8 env.stamp.timestampNanos := by
    simp [encode]
  have id_at : ((encode env).drop 11).take env.stamp.nodeID.length = env.stamp.nodeID := by
    simp [drop_header]
  have within : ¬ 11 + env.stamp.nodeID.length > (encode env).length := by
    simp [encode]
    omega
  rw [decodeStamp, if_neg (by simp [encode]), if_neg header]
  simp only [length_at, stamp_at, eight, two, id_at, if_neg within]

theorem decode_encode {env : Envelope} (timestamp : env.stamp.timestampNanos < 2 ^ 64)
    (nodeID : env.stamp.nodeID.length < 2 ^ 16) : decode (encode env) = .ok env := by
  rw [decode, decodeStamp_encode timestamp nodeID]
  have rest : (encode env).drop (11 + env.stamp.nodeID.length) = env.payload := by
    rw [← List.drop_drop, drop_header, List.drop_left]
  simp [rest]

theorem Stamp.zero_le (s : Stamp) : zero ≤ s := by
  refine not_lt.mp fun less => ?_
  have unfolded : s.timestampNanos < 0 ∨ s.timestampNanos = 0 ∧
      s.nodeID.map UInt8.toNat < [] := Prod.Lex.toLex_lt_toLex.mp less
  simp at unfolded

structure Envelope.Fits (env : Envelope) : Prop where
  timestamp : env.stamp.timestampNanos < 2 ^ 64
  nodeID : env.stamp.nodeID.length ≤ 65535

structure Agrees (b : Bytes) : Prop where
  fails : ∀ err, decodeStamp b = .error err ↔ decode b = .error err
  reports : ∀ stamp start, decodeStamp b = .ok (stamp, start) →
    decode b = .ok ⟨stamp, b.drop start⟩ ∧ (start = 0 ↔ b.head? ≠ some envelopeMagic)
  unmarked : b.head? ≠ some envelopeMagic → decode b = .ok ⟨.zero, b⟩

theorem agrees (b : Bytes) : Agrees b := by
  refine ⟨fun err => ?_, fun stamp start found => ⟨decode_eq found, ?_⟩, fun unmarked => ?_⟩
  · cases found : decodeStamp b with
    | error other => simp [decode, found]
    | ok read => simp [decode_eq found]
  · rcases decodeStamp_ok found with ⟨unmarked, -, rfl⟩ | ⟨marked, header⟩
    · exact ⟨fun _ => unmarked, fun _ => rfl⟩
    · exact ⟨fun none => by omega, fun unmarked => absurd marked unmarked⟩
  · exact decode_eq (if_pos unmarked)

/-- **The codec and the order of stamps.** -/
theorem envelope_codec_and_order :
    (∀ env : Envelope, env.Fits → decode (encode env) = .ok env) ∧
    (∀ env env' : Envelope, env.Fits → env'.Fits → encode env = encode env' → env = env') ∧
    (∀ b, Agrees b) ∧
    (∀ s t : Stamp, s.greater t = true → t.greater s = false) ∧
    (∀ s t u : Stamp, s.greater t = true → t.greater u = true → s.greater u = true) ∧
    (∀ s t : Stamp, s ≠ t → s.greater t = true ∨ t.greater s = true) ∧
    ∀ s : Stamp, s ≠ .zero → s.greater .zero = true := by
  have restored : ∀ env : Envelope, env.Fits → decode (encode env) = .ok env :=
    fun env fits => decode_encode fits.timestamp (Nat.lt_succ_of_le fits.nodeID)
  simp only [Bool.eq_false_iff, ne_eq, Stamp.greater_iff]
  refine ⟨restored, fun env env' fits fits' same => ?_, agrees, fun s t => lt_asymm,
    fun s t u first second => second.trans first, fun s t differ => ?_, fun s differ => ?_⟩
  · have twice := restored env fits
    rw [same, restored env' fits'] at twice
    cases twice
    rfl
  · exact (lt_or_gt_of_ne differ).symm
  · exact lt_of_le_of_ne s.zero_le (Ne.symm differ)

end Shale.Wire
