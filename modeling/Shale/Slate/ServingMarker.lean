import Mathlib.Data.Nat.Digits.Lemmas
import Shale.Foundation.Threads
import Shale.Handoff.MountTable

/-!
# The serving marker of a mount

A gaining owner records the epoch it serves at as a decimal string in an object beside the mount's
database (`writeServingMarker` of `backends/slate/factory.go`), and a draining owner polls that
object. A write reads the marker first and stays away if the recorded epoch is not lower; the put
itself is unconditional, so that what has been recorded between the read and the put is lost.
-/

namespace Shale.Slate

open List Machine

def decimal (n : Nat) : List UInt8 :=
  if n = 0 then [48] else (Nat.digits 10 n).reverse.map fun digit => UInt8.ofNat (48 + digit)

def encodeServingMarker (epoch : UInt64) : List UInt8 := decimal epoch.toNat

def spaces : List (List UInt8) :=
  [[9], [10], [11], [12], [13], [32], [0xC2, 0x85], [0xC2, 0xA0], [0xE1, 0x9A, 0x80]] ++
    (List.range 11).map (fun i => [0xE2, 0x80, 0x80 + UInt8.ofNat i]) ++
    [[0xE2, 0x80, 0xA8], [0xE2, 0x80, 0xA9], [0xE2, 0x80, 0xAF], [0xE2, 0x81, 0x9F],
      [0xE3, 0x80, 0x80]]

def trimFront (blanks : List (List UInt8)) : Nat → List UInt8 → List UInt8
  | 0, raw => raw
  | fuel + 1, raw =>
    match blanks.findSome? fun blank => raw.dropPrefix? blank with
    | some rest => trimFront blanks fuel rest
    | none => raw

def trimSpace (raw : List UInt8) : List UInt8 :=
  let front := trimFront spaces raw.length raw
  (trimFront (spaces.map List.reverse) front.length front.reverse).reverse

def parseDigit (value : Nat) (byte : UInt8) : Option Nat :=
  if 48 ≤ byte.toNat ∧ byte.toNat ≤ 57 then
    let next := value * 10 + (byte.toNat - 48)
    if next < 2 ^ 64 then some next else none
  else none

def parseUint (digits : List UInt8) : Option Nat :=
  if digits = [] then none else digits.foldlM parseDigit 0

def parseServingMarker (raw : List UInt8) : Option Nat := parseUint (trimSpace raw)

/-- What a read that does not fail finds: nothing if the object is missing or unreadable. -/
def readServingMarker (object : Option (List UInt8)) : Option Nat := object.bind parseServingMarker

/-- The epoch that a read returns, zero beside `ok = false`. -/
def reported (object : Option (List UInt8)) : Nat := (readServingMarker object).getD 0

section Payload

def IsDigit (byte : UInt8) : Prop := 48 ≤ byte.toNat ∧ byte.toNat ≤ 57

instance (byte : UInt8) : Decidable (IsDigit byte) := inferInstanceAs (Decidable (_ ∧ _))

theorem trimFront_of_digit {blanks : List (List UInt8)}
    (nonempty : ∀ blank ∈ blanks, blank.head?.any (fun first => ¬ IsDigit first) = true)
    (fuel : Nat) {raw : List UInt8} (digits : ∀ byte ∈ raw, IsDigit byte) :
    trimFront blanks fuel raw = raw := by
  cases fuel with
  | zero => rw [trimFront]
  | succ fuel =>
    have none_found : blanks.findSome? (fun blank => raw.dropPrefix? blank) = none := by
      rw [List.findSome?_eq_none_iff]
      intro blank listed
      obtain ⟨first, leads, other⟩ := (Option.any_eq_true _ _).mp (nonempty blank listed)
      obtain ⟨rest, rfl⟩ := List.head?_eq_some_iff.mp leads
      cases raw with
      | nil => rfl
      | cons byte raw =>
        have apart : byte ≠ first := by
          rintro rfl
          exact of_decide_eq_true other (digits byte mem_cons_self)
        simp [List.dropPrefix?, apart]
    rw [trimFront, none_found]

theorem trimSpace_of_digits {raw : List UInt8} (digits : ∀ byte ∈ raw, IsDigit byte) :
    trimSpace raw = raw := by
  have front : trimFront spaces raw.length raw = raw := by
    refine trimFront_of_digit ?_ _ digits
    decide
  have back : trimFront (spaces.map List.reverse) raw.length raw.reverse = raw.reverse := by
    refine trimFront_of_digit ?_ _ (by simpa using digits)
    decide
  simp [trimSpace, front, back]

theorem foldlM_parseDigit (digits : List Nat) (small : ∀ digit ∈ digits, digit < 10)
    (fits : Nat.ofDigits 10 digits < 2 ^ 64) :
    (digits.reverse.map fun digit => UInt8.ofNat (48 + digit)).foldlM parseDigit 0 =
      some (Nat.ofDigits 10 digits) := by
  induction digits with
  | nil => rfl
  | cons digit digits ih =>
    have low : digit < 10 := small digit mem_cons_self
    rw [Nat.ofDigits_cons] at fits ⊢
    have earlier := ih (fun other listed => small other (mem_cons_of_mem _ listed))
      (by omega)
    have byte : (UInt8.ofNat (48 + digit)).toNat = 48 + digit := by
      rw [UInt8.toNat_ofNat']
      omega
    have next : parseDigit (Nat.ofDigits 10 digits) (UInt8.ofNat (48 + digit)) =
        some (digit + 10 * Nat.ofDigits 10 digits) := by
      simp only [parseDigit, byte]
      rw [if_pos (by omega), if_pos (by omega)]
      congr 1
      omega
    rw [reverse_cons, map_append, foldlM_append, earlier]
    simp only [map_cons, map_nil, foldlM_cons, foldlM_nil,
      Option.bind_eq_bind, Option.bind_some, next, Option.pure_def]

theorem mem_decimal {n : Nat} {byte : UInt8} (listed : byte ∈ decimal n) : IsDigit byte := by
  unfold decimal at listed
  split at listed
  · cases mem_singleton.mp listed
    decide
  · obtain ⟨digit, written, rfl⟩ := mem_map.mp listed
    have low : digit < 10 := Nat.digits_lt_base (by omega) (mem_reverse.mp written)
    rw [IsDigit, UInt8.toNat_ofNat']
    omega

theorem parseUint_decimal {n : Nat} (fits : n < 2 ^ 64) : parseUint (decimal n) = some n := by
  by_cases zero : n = 0
  · subst zero
    decide
  · have value := Nat.ofDigits_digits 10 n
    rw [decimal, if_neg zero, parseUint, if_neg,
      foldlM_parseDigit _ (fun digit listed => Nat.digits_lt_base (by omega) listed)
        (by rwa [value]), value]
    simpa using Nat.digits_ne_nil_iff_ne_zero.mpr zero

/-- **Round trip.** What a write puts reads back as its epoch. -/
theorem parseServingMarker_encode (epoch : UInt64) :
    parseServingMarker (encodeServingMarker epoch) = some epoch.toNat := by
  rw [encodeServingMarker, parseServingMarker, trimSpace_of_digits fun byte => mem_decimal,
    parseUint_decimal epoch.toNat_lt]

end Payload

/-- A put that has reached the store, with what the marker came to report between the writer's read
and the put. -/
structure Put where
  epoch : UInt64
  landed : List Nat
deriving DecidableEq

structure Marker where
  object : Option (List UInt8)
  reports : List Nat
  puts : List Put

/-- How far a goroutine has come with a `writeServingMarker`: nothing asked yet, before the read,
before the put with the number of reports there were at the read, returned. -/
inductive WriterPhase where
  | idle
  | reading (epoch : UInt64)
  | putting (epoch : UInt64) (seen : Nat)
  | returned (ok : Bool)
deriving DecidableEq

inductive WriterEvent where
  | call (epoch : UInt64)
  | read (ok : Bool)
  | put
  | putFails (landed : Bool)
deriving DecidableEq

namespace Marker

def put (epoch : UInt64) (seen : Nat) (m : Marker) : Marker :=
  { object := some (encodeServingMarker epoch)
    reports := m.reports ++ [reported (some (encodeServingMarker epoch))]
    puts := m.puts ++ [⟨epoch, m.reports.drop seen⟩] }

def advance : WriterEvent → Marker → WriterPhase → Option (Marker × WriterPhase)
  | .call epoch, m, .idle => some (m, .reading epoch)
  | .read ok, m, .reading epoch =>
    if ok then
      match readServingMarker m.object with
      | some cur =>
        if cur ≥ epoch.toNat then some (m, .returned true)
        else some (m, .putting epoch m.reports.length)
      | none => some (m, .putting epoch m.reports.length)
    else some (m, .returned false)
  | .put, m, .putting epoch seen => some (m.put epoch seen, .returned true)
  | .putFails landed, m, .putting epoch seen =>
    some (if landed then m.put epoch seen else m, .returned false)
  | _, _, _ => none

abbrev Writers := Threads Marker Nat WriterPhase

def program : Threads.Program Marker Nat WriterEvent WriterPhase :=
  fun name event s => advance event s.object (s.phase name)

def machine : Machine Writers (Nat × WriterEvent) := Threads.machine program

/-- Any object may be there at first, of any encoding, or none. -/
def initial (object : Option (List UInt8)) : Writers :=
  ⟨⟨object, [reported object], []⟩, fun _ => .idle⟩

section Steps

variable {event : WriterEvent} {m m' : Marker} {phase phase' : WriterPhase}

theorem advance_cases (moved : advance event m phase = some (m', phase')) :
    (∃ epoch seen ok, phase = .putting epoch seen ∧ phase' = .returned ok ∧ m' = m.put epoch seen) ∨
      (m' = m ∧ ∀ epoch seen, phase' = .putting epoch seen →
        seen = m.reports.length ∧ reported m.object ≤ epoch.toNat) := by
  unfold advance at moved
  split at moved
  case h_1 =>
    cases moved
    exact .inr ⟨rfl, nofun⟩
  case h_2 =>
    split at moved
    · split at moved
      case h_1 cur found =>
        split at moved
        · cases moved
          exact .inr ⟨rfl, nofun⟩
        case isFalse lower =>
          cases moved
          refine .inr ⟨rfl, ?_⟩
          intro epoch seen same
          obtain ⟨rfl, rfl⟩ := WriterPhase.putting.inj same
          rw [reported, found, Option.getD_some]
          exact ⟨rfl, by omega⟩
      case h_2 absent =>
        cases moved
        refine .inr ⟨rfl, ?_⟩
        intro epoch seen same
        obtain ⟨rfl, rfl⟩ := WriterPhase.putting.inj same
        rw [reported, absent, Option.getD_none]
        exact ⟨rfl, Nat.zero_le _⟩
    · cases moved
      exact .inr ⟨rfl, nofun⟩
  case h_3 epoch seen =>
    cases moved
    exact .inl ⟨epoch, seen, true, rfl, rfl, rfl⟩
  case h_4 landed epoch seen =>
    cases moved
    cases landed with
    | true => exact .inl ⟨epoch, seen, false, rfl, rfl, rfl⟩
    | false => exact .inr ⟨rfl, nofun⟩
  case h_5 => cases moved

end Steps

end Marker

def Put.NotOvertaken (w : Put) : Prop := ∀ epoch ∈ w.landed, epoch ≤ w.epoch.toNat

instance (w : Put) : Decidable w.NotOvertaken := inferInstanceAs (Decidable (∀ _ ∈ _, _))

namespace Marker

structure Good (m : Marker) : Prop where
  current : ∃ earlier, m.reports = earlier ++ [reported m.object]
  ordered_iff : m.reports.Pairwise (· ≤ ·) ↔ ∀ w ∈ m.puts, w.NotOvertaken

def Owns (m : Marker) (phase : WriterPhase) : Prop :=
  ∀ epoch seen, phase = .putting epoch seen →
    ∃ earlier found since, m.reports = earlier ++ [found] ++ since ∧
      seen = (earlier ++ [found]).length ∧ found ≤ epoch.toNat

theorem reported_encode (epoch : UInt64) :
    reported (some (encodeServingMarker epoch)) = epoch.toNat := by
  rw [reported, readServingMarker, Option.bind_some, parseServingMarker_encode, Option.getD_some]

theorem Owns.put {m : Marker} {phase : WriterPhase} (owns : Owns m phase) (epoch : UInt64)
    (seen : Nat) : Owns (m.put epoch seen) phase := by
  intro mine seenAt same
  obtain ⟨earlier, found, since, reports, length, le⟩ := owns mine seenAt same
  refine ⟨earlier, found, since ++ [reported (some (encodeServingMarker epoch))], ?_, length, le⟩
  rw [Marker.put, reports, append_assoc]

theorem Good.put {m : Marker} {epoch : UInt64} {seen : Nat} (good : Good m)
    (owns : Owns m (.putting epoch seen)) : Good (m.put epoch seen) := by
  obtain ⟨earlier, found, since, reports, rfl, le⟩ := owns epoch seen rfl
  refine ⟨⟨m.reports, rfl⟩, ?_⟩
  have landed : m.reports.drop (earlier ++ [found]).length = since := by
    rw [reports, drop_left]
  simp only [Marker.put, reported_encode, landed, pairwise_append, mem_append,
    mem_singleton, or_imp, forall_and, forall_eq, good.ordered_iff]
  refine ⟨fun h => ⟨h.1, ?_⟩, fun h => ⟨h.1, pairwise_singleton _ _, ?_⟩⟩
  · intro value listed
    refine h.2.2 value ?_
    rw [reports]
    exact mem_append_right _ listed
  · intro value listed
    have ordered := good.ordered_iff.mpr h.1
    rw [reports, append_assoc, pairwise_append] at ordered
    rw [reports, mem_append, mem_append, mem_singleton] at listed
    rcases listed with (old | rfl) | new
    · exact (ordered.2.2 value old found (by simp)).trans le
    · exact le
    · exact h.2 value new

theorem good_of_reaches {object : Option (List UInt8)} {s : Writers}
    (reached : machine.Reaches anyAction (initial object) s) : Good s.object := by
  refine (Threads.invariant Good (fun _ => Owns) reached ⟨⟨[], rfl⟩, ?_⟩ (fun _ => nofun) ?_).1
  · exact iff_of_true (pairwise_singleton _ _) nofun
  · intro s name event m' phase' _ good owns _ moved
    rcases advance_cases moved with ⟨epoch, seen, ok, before, rfl, rfl⟩ | ⟨rfl, found⟩
    · exact ⟨good.put (before ▸ owns name), nofun, fun other _ => (owns other).put epoch seen⟩
    · refine ⟨good, ?_, fun other _ => owns other⟩
      intro epoch seen same
      obtain ⟨rfl, le⟩ := found epoch seen same
      obtain ⟨earlier, reports⟩ := good.current
      exact ⟨earlier, reported s.object.object, [], by rw [reports, append_nil],
        by rw [reports], le⟩

end Marker

/-- **When the marker is monotone.** In every run of any number of writers with any epochs, from any
object, what the marker reports never decreases exactly if no write was overtaken. -/
theorem serving_marker_monotone_iff (object : Option (List UInt8)) (s : Marker.Writers)
    (reached : Marker.machine.Reaches anyAction (Marker.initial object) s) :
    (∃ earlier, s.object.reports = earlier ++ [reported s.object.object]) ∧
      (s.object.reports.Pairwise (· ≤ ·) ↔ ∀ w ∈ s.object.puts, w.NotOvertaken) :=
  ⟨(Marker.good_of_reaches reached).current, (Marker.good_of_reaches reached).ordered_iff⟩

/-- An owner with epoch 5 writes before one with epoch 7, over a marker of an older encoding. -/
def Marker.oneAfterAnother : List (Nat × WriterEvent) :=
  [(0, .call 5), (0, .read true), (0, .put), (1, .call 7), (1, .read true), (1, .put)]

theorem serving_marker_monotone_one_after_another :
    ∃ s, Marker.machine.Reaches anyAction (Marker.initial (some [0x7B, 0x7D])) s ∧
      s.object.puts = [⟨5, []⟩, ⟨7, []⟩] ∧ readServingMarker s.object.object = some 7 ∧
        s.object.reports.Pairwise (· ≤ ·) := by
  obtain ⟨s, reached, puts, read⟩ := Marker.machine.exists_reaches_of_run anyAction
    Marker.oneAfterAnother (Marker.initial (some [0x7B, 0x7D]))
    (fun s => s.object.puts = [⟨5, []⟩, ⟨7, []⟩] ∧ readServingMarker s.object.object = some 7)
    (by decide)
  refine ⟨s, reached, puts, read, (serving_marker_monotone_iff _ s reached).2.mpr ?_⟩
  rw [puts]
  decide

def Marker.overtaken : List (Nat × WriterEvent) :=
  [(0, .call 5), (0, .read true), (1, .call 7), (1, .read true), (1, .put)]

/-- Both writes succeed, and with the put of epoch 5 the marker goes back from 7. -/
theorem serving_marker_rolled_back :
    ∃ s s', Marker.machine.Reaches anyAction (Marker.initial none) s ∧
      Marker.machine.Reaches anyAction s s' ∧
      readServingMarker s.object.object = some 7 ∧ readServingMarker s'.object.object = some 5 ∧
      s'.phase 0 = .returned true ∧ s'.phase 1 = .returned true := by
  obtain ⟨s, s', reached, stepped, ended⟩ := Marker.machine.exists_step_of_run anyAction
    Marker.overtaken (0, .put) (Marker.initial none)
    (fun s s' => readServingMarker s.object.object = some 7 ∧
      readServingMarker s'.object.object = some 5 ∧
      s'.phase 0 = .returned true ∧ s'.phase 1 = .returned true) (by decide)
  exact ⟨s, s', reached, .tail .refl trivial stepped, ended⟩

namespace Marker

theorem reaches_writeServingMarker {s : Writers} {name : Nat} {epoch : UInt64}
    {p : Handoff.Place} (idle : s.phase name = .idle)
    (marked : readServingMarker s.object.object = p.marker) :
    ∃ s', machine.Reaches anyAction s s' ∧ s'.phase name = .returned true ∧
      readServingMarker s'.object.object = (p.writeServingMarker epoch.toNat).marker := by
  have writes : (p.writeServingMarker epoch.toNat).marker =
      some (max epoch.toNat (p.marker.getD 0)) := rfl
  by_cases high : ∃ cur, p.marker = some cur ∧ epoch.toNat ≤ cur
  · -- the recorded epoch is not lower, and the write stays away
    obtain ⟨cur, found, le⟩ := high
    obtain ⟨s', ran, ended⟩ : ∃ s', machine.run anyAction
        [(name, .call epoch), (name, .read true)] s = some s' ∧ s'.phase name = .returned true ∧
          readServingMarker s'.object.object = some cur := by
      simp [run, anyAction, machine, Threads.machine, Threads.step, program,
        advance, idle, marked, found, le]
    rw [writes, found, Option.getD_some, max_eq_right le]
    exact ⟨s', reaches_of_run ran, ended⟩
  · have reads : advance (.read true) s.object (.reading epoch) =
        some (s.object, .putting epoch s.object.reports.length) := by
      simp only [advance, marked, if_true]
      split
      case h_1 cur found => rw [if_neg fun le => high ⟨cur, found, le⟩]
      case h_2 => rfl
    have wrote : ∀ seen, readServingMarker (s.object.put epoch seen).object = some epoch.toNat :=
      fun _ => parseServingMarker_encode epoch
    obtain ⟨s', ran, ended⟩ : ∃ s', machine.run anyAction
        [(name, .call epoch), (name, .read true), (name, .put)] s = some s' ∧
          s'.phase name = .returned true ∧
            readServingMarker s'.object.object = some epoch.toNat := by
      simp [run, anyAction, machine, Threads.machine, Threads.step, program,
        idle, reads, wrote, advance.eq_1, advance.eq_3]
    have lower : p.marker.getD 0 ≤ epoch.toNat := by
      cases found : p.marker with
      | none => exact Nat.zero_le _
      | some cur => exact Nat.le_of_not_le fun le => high ⟨cur, found, le⟩
    rw [writes, max_eq_left lower]
    exact ⟨s', reaches_of_run ran, ended⟩

end Marker

end Shale.Slate
