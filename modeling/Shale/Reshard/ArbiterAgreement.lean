import Mathlib.Data.List.Chain
import Mathlib.Data.Nat.Log
import Shale.Reshard.Arbiter

/-!
# Every node agrees on the arbiter's epochs

Whatever calls any number of nodes make, and however their accesses to the store interleave,
the states stored one after the other are a run of the atomic object: each compare-and-set that
succeeds replaces the state its caller planned from, even if a version token has come back with
the bytes it stands for. From that follow the shape of every change, the one `Advance` that
reports each epoch, and the approach of the count to its target. The stored epoch is a `uint64`:
what counts epochs holds for the first 2^64 stored states, and a longer run wraps it.
-/

namespace Shale.Arbiter

open Machine

section Epochs

variable {Epoch : Type}

def Retargeted (cur next : State Epoch) : Prop :=
  next.epoch = cur.epoch ∧ next.count = cur.count ∧ next.plan = cur.plan ∧
    next.target ≠ cur.target

def State.distance (s : State Epoch) : Nat :=
  Nat.log2 s.count.n - Nat.log2 s.target.n + (Nat.log2 s.target.n - Nat.log2 s.count.n)

theorem distance_of_pow (s : State Epoch) {i j : Nat} (count : s.count.n = 2 ^ i)
    (target : s.target.n = 2 ^ j) : s.distance = i - j + (j - i) := by
  rw [State.distance, count, target, Nat.log2_two_pow, Nat.log2_two_pow]

variable [Add Epoch] [OfNat Epoch 1]

/-- One generation towards the target: a split below it, a merge above it, never past it. -/
structure Advanced (cur next : State Epoch) : Prop where
  epoch : next.epoch = cur.epoch + 1
  target : next.target = cur.target
  plan : cur.count.n < cur.target.n ∧ next.count.n = 2 * cur.count.n ∧ next.plan = .split ∨
    cur.target.n < cur.count.n ∧ cur.count.n = 2 * next.count.n ∧ next.plan = .merge
  closer : next.distance < cur.distance
  within : cur.count.n ≤ next.count.n ∧ next.count.n ≤ cur.target.n ∨
    cur.target.n ≤ next.count.n ∧ next.count.n ≤ cur.count.n

variable {cur next : State Epoch}

theorem advanced_split {double : UnitCount} (below : cur.count.n < cur.target.n)
    (doubled : cur.count.double = .ok double) :
    Advanced cur ⟨cur.epoch + 1, double, cur.target, .split⟩ := by
  obtain ⟨i, count⟩ := cur.count.eq_two_pow
  obtain ⟨j, target⟩ := cur.target.eq_two_pow
  have twice := UnitCount.n_of_double doubled
  have exponents : i < j := by
    rw [count, target] at below
    exact (Nat.pow_lt_pow_iff_right (by omega)).mp below
  have reached : double.n = 2 ^ (i + 1) := by rw [twice, count, Nat.pow_succ, Nat.mul_comm]
  have within : double.n ≤ cur.target.n := by
    rw [reached, target]
    exact Nat.pow_le_pow_right (by omega) exponents
  refine ⟨rfl, rfl, .inl ⟨below, twice, rfl⟩, ?_, .inl ⟨by simp only; omega, within⟩⟩
  rw [distance_of_pow cur count target,
    distance_of_pow ⟨cur.epoch + 1, double, cur.target, .split⟩ reached target]
  omega

theorem advanced_merge {half : UnitCount} (above : cur.target.n < cur.count.n)
    (halved : cur.count.halve = .ok half) :
    Advanced cur ⟨cur.epoch + 1, half, cur.target, .merge⟩ := by
  obtain ⟨i, count⟩ := cur.count.eq_two_pow
  obtain ⟨j, target⟩ := cur.target.eq_two_pow
  have twice := UnitCount.n_of_halve halved
  have exponents : j < i := by
    rw [count, target] at above
    exact (Nat.pow_lt_pow_iff_right (by omega)).mp above
  have reached : half.n = 2 ^ (i - 1) := by
    have : 2 ^ i = 2 * 2 ^ (i - 1) := by
      rw [Nat.mul_comm, ← Nat.pow_succ]
      congr 1
      omega
    omega
  have within : cur.target.n ≤ half.n := by
    rw [reached, target]
    exact Nat.pow_le_pow_right (by omega) (by omega)
  refine ⟨rfl, rfl, .inr ⟨above, twice, rfl⟩, ?_, .inr ⟨within, by simp only; omega⟩⟩
  rw [distance_of_pow cur count target,
    distance_of_pow ⟨cur.epoch + 1, half, cur.target, .merge⟩ reached target]
  omega

theorem advanced_of_planNext (planned : planNext cur = .ok (some next)) :
    Advanced cur next := by
  unfold planNext at planned
  split at planned
  · cases planned
  case isFalse apart =>
    split at planned
    case isTrue below =>
      split at planned
      · cases planned
      case h_2 double doubled =>
        cases Except.ok.inj planned
        exact advanced_split below doubled
    case isFalse above =>
      split at planned
      · cases planned
      case h_2 half halved =>
        cases Except.ok.inj planned
        exact advanced_merge (by omega) halved

theorem of_atomic [OfNat Epoch 0] {event : Event} {cur : Option (State Epoch)}
    (stepped : atomic.step event cur = some (some next)) :
    cur = none ∧ (∃ initial, next = State.seed initial) ∨
      ∃ before, cur = some before ∧ (Retargeted before next ∨ Advanced before next) := by
  obtain ⟨initial, -, rfl, same⟩ | ⟨target, before, -, rfl, apart, same⟩ |
    ⟨before, later, -, rfl, planned, same⟩ := atomic_cases stepped
  · exact .inl ⟨rfl, initial, Option.some.inj same⟩
  · cases same
    refine .inr ⟨before, rfl, .inl ⟨rfl, rfl, rfl, fun kept => apart ?_⟩⟩
    exact congrArg UnitCount.n kept.symm
  · cases same
    exact .inr ⟨before, rfl, .inr (advanced_of_planNext planned)⟩

def Changed (cur next : State Epoch) : Prop := Retargeted cur next ∨ Advanced cur next

end Epochs

section Access

variable {Version : Type} {vs : Versions StateWire Version} {obj : CondObject StateWire}
  {phase : Phase Version} {op : Op}

/-- What a call still holds of what it has read: a write planned from a state that was stored
under the token it will present. -/
def Phase.Planned (vs : Versions StateWire Version) (obj : CondObject StateWire) (op : Op) :
    Phase Version → Prop
  | .retargetSet target _ cur ver => cur.target.n ≠ target.n ∧ obj.Wrote vs cur.encode ver
  | .advanceSet next ver =>
    op = .advance ∧ ∃ cur, planNext cur = .ok (some next) ∧ obj.Wrote vs cur.encode ver
  | .advanceRead => op = .advance
  | .seedPut _ | .reading | .retargetRead .. | .returned _ => True

def Phase.performed : Phase Version → Option UInt64
  | .returned (.state s true) => some s.epoch
  | _ => none

theorem Phase.Planned.write (planned : phase.Planned vs obj op) (data : StateWire) :
    phase.Planned vs (obj.write data) op := by
  cases phase with
  | retargetSet target left cur ver => exact ⟨planned.1, planned.2.write data⟩
  | advanceSet next ver =>
    obtain ⟨same, cur, step, wrote⟩ := planned
    exact ⟨same, cur, step, wrote.write data⟩
  | _ => exact planned

theorem of_read {cur : State UInt64} {ver : Version} (found : read vs obj = .ok (cur, ver))
    (encoded : ∀ data ∈ obj.stored, ∃ st : State UInt64, data = st.encode) :
    obj.current = some cur.encode ∧ obj.Wrote vs cur.encode ver := by
  unfold read at found
  split at found
  · cases found
  case h_2 data named got =>
    obtain ⟨held, wrote⟩ := CondObject.of_get got
    obtain ⟨st, rfl⟩ := encoded data (List.mem_of_getLast? held)
    rw [decodeState_encode] at found
    cases Except.ok.inj found
    exact ⟨held, wrote⟩

theorem access_cases [DecidableEq Version] (planned : phase.Planned vs obj op)
    (encoded : ∀ data ∈ obj.stored, ∃ st : State UInt64, data = st.encode) :
    (access vs obj phase).1 = obj ∧ (access vs obj phase).2.Planned vs obj op ∧
        (phase.performed = none → (access vs obj phase).2.performed = none) ∨
      ∃ cur next event, obj.current = cur.map State.encode ∧
        atomic.step event cur = some (some next) ∧
        (access vs obj phase).1 = obj.write next.encode ∧
        (access vs obj phase).2.Planned vs (obj.write next.encode) op ∧
        (event = .advance → op = .advance) ∧
        (access vs obj phase).2.performed = if event = .advance then some next.epoch else none := by
  cases phase with
  | seedPut initial =>
    simp only [access]
    split
    case h_1 written put =>
      obtain ⟨absent, rfl⟩ := CondObject.of_putIfAbsent put
      exact .inr ⟨none, State.seed initial, .seed initial, absent, rfl, rfl, trivial, nofun, rfl⟩
    case h_2 => exact .inl ⟨rfl, trivial, fun _ => rfl⟩
  | reading =>
    simp only [access]
    split <;> exact .inl ⟨rfl, trivial, fun _ => rfl⟩
  | retargetRead target left =>
    simp only [access]
    split
    · exact .inl ⟨rfl, trivial, fun _ => rfl⟩
    case h_2 cur ver found =>
      split
      · exact .inl ⟨rfl, trivial, fun _ => rfl⟩
      case isFalse apart =>
        exact .inl ⟨rfl, ⟨apart, (of_read found encoded).2⟩, fun _ => rfl⟩
  | retargetSet target left cur ver =>
    obtain ⟨apart, wrote⟩ := planned
    simp only [access]
    split
    case h_1 written set =>
      obtain ⟨held, rfl⟩ := CondObject.of_compareAndSet wrote set
      refine .inr ⟨some cur, cur.retarget target, .retarget target, held, ?_, rfl, trivial,
        nofun, rfl⟩
      simp [atomic, apart]
    case h_2 =>
      split <;> exact .inl ⟨rfl, trivial, fun _ => rfl⟩
  | advanceRead =>
    simp only [access]
    split
    · exact .inl ⟨rfl, trivial, fun _ => rfl⟩
    case h_2 cur ver found =>
      split
      · exact .inl ⟨rfl, trivial, fun _ => rfl⟩
      · exact .inl ⟨rfl, trivial, fun _ => rfl⟩
      case h_3 next step =>
        exact .inl ⟨rfl, ⟨planned, cur, step, (of_read found encoded).2⟩, fun _ => rfl⟩
  | advanceSet next ver =>
    obtain ⟨own, cur, step, wrote⟩ := planned
    simp only [access]
    split
    case h_1 written set =>
      obtain ⟨held, rfl⟩ := CondObject.of_compareAndSet wrote set
      refine .inr ⟨some cur, next, .advance, held, ?_, rfl, trivial, fun _ => own, rfl⟩
      simp [atomic, step]
    case h_2 => exact .inl ⟨rfl, trivial, fun _ => rfl⟩
  | returned result => exact .inl ⟨rfl, trivial, id⟩

end Access

def reports {Version : Type} (epoch : UInt64) (call : Call Op (Phase Version)) : Bool :=
  decide (call.op = .advance ∧ call.phase.performed = some epoch)

def epochOf (obj : CondObject StateWire) : UInt64 := (obj.current.map StateWire.epoch).getD 0

section Runs

variable {Version : Type} {vs : Versions StateWire Version} {s : Cluster Version}
  {obj : CondObject StateWire} {states : List (State UInt64)}

/-- `states` were stored in `obj` one after the other, from a seed on. -/
structure Agreed (obj : CondObject StateWire) (states : List (State UInt64)) : Prop where
  encoded : obj.stored = states.map State.encode
  seeded : ∀ first ∈ states.head?, ∃ count, first = State.seed count
  chain : states.IsChain Changed

theorem Agreed.exists_encode (agreed : Agreed obj states) :
    ∀ data ∈ obj.stored, ∃ st : State UInt64, data = st.encode := by
  intro data mem
  rw [agreed.encoded] at mem
  obtain ⟨st, -, rfl⟩ := List.mem_map.mp mem
  exact ⟨st, rfl⟩

variable {cur : Option (State UInt64)}

theorem Agreed.getLast? (agreed : Agreed obj states) (held : obj.current = cur.map State.encode) :
    states.getLast? = cur := by
  rw [CondObject.current, agreed.encoded, List.getLast?_map] at held
  exact Option.map_injective (fun _ _ => encode_injective) held

variable {event : Event} {next : State UInt64}

theorem Agreed.write (agreed : Agreed obj states) (held : obj.current = cur.map State.encode)
    (stepped : atomic.step event cur = some (some next)) :
    Agreed (obj.write next.encode) (states ++ [next]) := by
  have last := agreed.getLast? held
  have encoded : (obj.write next.encode).stored = (states ++ [next]).map State.encode := by
    simp [CondObject.write, agreed.encoded]
  rcases of_atomic stepped with ⟨rfl, count, rfl⟩ | ⟨before, rfl, changed⟩
  · obtain rfl := List.getLast?_eq_none_iff.mp last
    exact ⟨encoded, by simp, .singleton _⟩
  · have some_state : states ≠ [] := by
      rintro rfl
      simp at last
    refine ⟨encoded, ?_, List.isChain_append.mpr ⟨agreed.chain, .singleton _, ?_⟩⟩
    · rw [List.head?_append_of_ne_nil _ some_state]
      exact agreed.seeded
    · intro earlier isLast later isNext
      rw [last, Option.mem_some_iff] at isLast
      obtain rfl : next = later := by simpa using isNext
      exact isLast ▸ changed

theorem Agreed.epoch_le (agreed : Agreed obj states) {i : Nat} (below : i < states.length) :
    states[i].epoch.toNat ≤ i := by
  induction i with
  | zero =>
    obtain ⟨count, seed⟩ := agreed.seeded states[0] (by simp [List.head?_eq_getElem?])
    rw [seed]
    exact le_rfl
  | succ i ih =>
    have before := ih (by omega)
    rcases agreed.chain.getElem i below with retargeted | advanced
    · rw [retargeted.1]
      omega
    · rw [advanced.epoch, UInt64.toNat_add]
      exact (Nat.mod_le _ _).trans (Nat.succ_le_succ before)

theorem Agreed.epochOf_le (agreed : Agreed obj states) :
    (epochOf obj).toNat ≤ obj.stored.length - 1 := by
  rw [epochOf, CondObject.current, agreed.encoded, List.length_map, List.getLast?_eq_getElem?]
  by_cases below : states.length - 1 < states.length
  · simpa [below, State.encode] using agreed.epoch_le below
  · simp [show states = [] from List.length_eq_zero_iff.mp (by omega)]

theorem toNat_succ {epoch : UInt64} {n : Nat} (le : epoch.toNat ≤ n) (fits : n + 1 < 2 ^ 64) :
    (epoch + 1).toNat = epoch.toNat + 1 := by
  rw [UInt64.toNat_add]
  exact Nat.mod_eq_of_lt (Nat.lt_of_le_of_lt (Nat.succ_le_succ le) fits)

theorem epochOf_write (held : obj.current = cur.map State.encode)
    (stepped : atomic.step event cur = some (some next)) :
    next.epoch = epochOf obj + if event = .advance then 1 else 0 := by
  have before : epochOf obj = (cur.map State.epoch).getD 0 := by
    rw [epochOf, held, Option.map_map]
    rfl
  rw [before]
  obtain ⟨initial, rfl, rfl, same⟩ | ⟨target, cur, rfl, rfl, -, same⟩ |
    ⟨cur, later, rfl, rfl, planned, same⟩ := atomic_cases stepped
  · cases same
    rfl
  · cases same
    simp [State.retarget]
  · cases same
    exact (advanced_of_planNext planned).epoch

theorem agreed_of_reaches [DecidableEq Version]
    (reached : (protocol vs).machine.Reaches anyAction initial s) :
    (∃ states, Agreed s.object states) ∧
      ∀ call ∈ s.calls, call.phase.Planned vs s.object call.op := by
  refine Protocol.invariant (fun obj => ∃ states, Agreed obj states)
    (fun obj op phase => phase.Planned vs obj op) reached ⟨[], rfl, by simp, .nil⟩
    (fun _ op => by cases op <;> simp [protocol, Op.start, Phase.Planned])
    (fun _ _ _ _ => trivial) ?_
  rintro obj op phase ⟨states, agreed⟩ planned -
  rcases access_cases planned agreed.exists_encode with ⟨same, kept, -⟩ |
    ⟨cur, next, event, held, happens, written, kept, -, -⟩
  · simp only [protocol, same]
    exact ⟨⟨states, agreed⟩, kept, id⟩
  · simp only [protocol, written]
    exact ⟨⟨states ++ [next], agreed.write held happens⟩, kept, fun other => other.write _⟩

/-- The state as it is stored: the `uint64` keeps the epoch modulo 2^64. -/
def State.wrap (s : State Nat) : State UInt64 := ⟨.ofNat s.epoch, s.count, s.target, s.plan⟩

theorem planNext_wrap (cur : State Nat) :
    planNext cur.wrap = (planNext cur).map (Option.map State.wrap) := by
  unfold planNext State.wrap
  cases cur.count.double <;> cases cur.count.halve <;> dsimp only <;> split_ifs <;>
    simp [Except.map, UInt64.ofNat_add]

theorem atomic_wrap (event : Event) (cur : Option (State Nat)) :
    atomic.step event (cur.map State.wrap) =
      (atomic.step event cur).map (Option.map State.wrap) := by
  cases cur with
  | none => cases event <;> rfl
  | some cur =>
    cases event with
    | seed => rfl
    | retarget target =>
      by_cases same : cur.target.n = target.n <;> simp [atomic, State.wrap, State.retarget, same]
    | advance =>
      simp only [atomic, Option.map_some, planNext_wrap]
      rcases planNext cur with _ | _ | next <;> rfl

/-- The calls refine the atomic object, whose epochs do not wrap. -/
theorem exists_atomic_reaches [DecidableEq Version]
    (reached : (protocol vs).machine.Reaches anyAction initial s) :
    ∃ cur, atomic.Reaches anyAction none cur ∧
      s.object.current = (cur.map State.wrap).map State.encode := by
  refine Protocol.simulates (fun obj => ∃ states, Agreed obj states)
    (fun obj op phase => phase.Planned vs obj op) reached agreed_of_reaches atomic
    (fun obj cur => obj.current = (cur.map State.wrap).map State.encode) none rfl ?_
  rintro obj op phase cur ⟨states, agreed⟩ planned - held
  rcases access_cases planned agreed.exists_encode with ⟨same, -, -⟩ |
    ⟨cur', next, event, held', happens, written, -, -, -⟩
  · exact .inl (by simp only [protocol, same, held])
  · obtain rfl : cur' = cur.map State.wrap :=
      Option.map_injective (fun _ _ => encode_injective) (held'.symm.trans held)
    rw [atomic_wrap] at happens
    obtain ⟨later, moves, same⟩ := Option.map_eq_some_iff.mp happens
    exact .inr ⟨event, later, moves, by simp [protocol, written, same]⟩

theorem countP_reports [DecidableEq Version] (fits : s.object.stored.length ≤ 2 ^ 64)
    (reached : (protocol vs).machine.Reaches anyAction initial s) (epoch : UInt64) :
    s.calls.countP (reports epoch) = if 0 < epoch ∧ epoch ≤ epochOf s.object then 1 else 0 := by
  simp only [UInt64.lt_iff_toNat_lt, UInt64.le_iff_toNat_le, UInt64.toNat_zero]
  refine Protocol.countP_eq (fun obj => ∃ states, Agreed obj states)
    (fun obj op phase => phase.Planned vs obj op) reached agreed_of_reaches
    (fun obj => obj.stored.length ≤ 2 ^ 64) (reports epoch)
    (fun obj => if 0 < epoch.toNat ∧ epoch.toNat ≤ (epochOf obj).toNat then 1 else 0) fits
    ?_ ?_ ?_ ?_ ?_
  · have none_yet : ¬ (0 < epoch.toNat ∧ epoch.toNat ≤ (epochOf CondObject.empty).toNat) := by
      change ¬ (0 < epoch.toNat ∧ epoch.toNat ≤ 0)
      omega
    simp [none_yet]
  · rintro ⟨op, phase⟩ going
    cases phase <;> simp_all [protocol, Phase.isReturned, reports, Phase.performed]
  · intro op
    cases op <;> simp [reports, protocol, Op.start, Phase.performed]
  · intro op phase
    simp [reports, protocol, Phase.performed]
  · rintro obj op phase ⟨states, agreed⟩ planned going fits
    have silent : phase.performed = none := by
      cases phase <;> simp_all [protocol, Phase.isReturned, Phase.performed]
    rcases access_cases planned agreed.exists_encode with ⟨same, -, quiet⟩ |
      ⟨cur, next, event, held, happens, written, -, own, performed⟩
    · simp only [protocol, same] at fits ⊢
      exact ⟨fits, by simp [reports, quiet silent]⟩
    · have grown := epochOf_write held happens
      have ended : epochOf (obj.write next.encode) = next.epoch := by
        simp [epochOf, State.encode]
      simp only [protocol, written, CondObject.write, List.length_append, List.length_singleton]
        at fits
      refine ⟨by omega, ?_⟩
      simp only [protocol, written, reports, performed, ended]
      by_cases advances : event = .advance
      · have counted := toNat_succ agreed.epochOf_le (by omega)
        simp only [advances, ↓reduceIte] at grown
        rw [← grown] at counted
        simp only [advances, ↓reduceIte, own advances, true_and, Option.some.injEq,
          decide_eq_true_eq, ← UInt64.toNat_inj]
        split_ifs <;> omega
      · simp only [advances, ↓reduceIte, UInt64.add_zero] at grown ⊢
        simp [grown]

/-- The first stored state is a seed, and every further one changes only the target or is one
generation towards it. While at most 2^64 states have been stored the epochs never decrease, and
each of them has been reported as performed by exactly one `Advance`. -/
theorem stored_epochs_agree [DecidableEq Version] (vs : Versions StateWire Version)
    (reached : (protocol vs).machine.Reaches anyAction initial s) :
    ∃ states : List (State UInt64), s.object.stored = states.map State.encode ∧
      (∀ first ∈ states.head?, ∃ count, first = State.seed count) ∧
      states.IsChain (fun cur next => Retargeted cur next ∨ Advanced cur next) ∧
      (states.length ≤ 2 ^ 64 →
        states.Pairwise (fun earlier later => earlier.epoch ≤ later.epoch) ∧
        ∀ epoch, s.calls.countP (reports epoch) =
          if 0 < epoch ∧ epoch ≤ epochOf s.object then 1 else 0) := by
  obtain ⟨⟨states, agreed⟩, -⟩ := agreed_of_reaches reached
  refine ⟨states, agreed.encoded, agreed.seeded, agreed.chain, fun fits => ⟨?_, ?_⟩⟩
  · refine List.IsChain.pairwise (List.isChain_iff_getElem.mpr fun i below => ?_)
    rcases agreed.chain.getElem i below with retargeted | advanced
    · exact UInt64.le_of_eq retargeted.1.symm
    · rw [advanced.epoch, UInt64.le_iff_toNat_le, toNat_succ (agreed.epoch_le _) (by omega)]
      exact Nat.le_succ _
  · refine countP_reports ?_ reached
    rwa [agreed.encoded, List.length_map]

end Runs

/-- Two calls of `Advance` plan a split from the same bytes, the target moves away and back in
between, and both present the same token. -/
def abaRun : List (CallAction Op) :=
  [.call (.seed .one), .access 0, .call (.retarget .two), .access 1, .access 1,
    .call .advance, .access 2, .call .advance, .access 3,
    .call (.retarget .one), .access 4, .access 4, .call (.retarget .two), .access 5, .access 5,
    .access 2, .access 3, .access 3]

theorem returned_token_advances_once :
    let s := (protocol (Versions.content StateWire)).machine.endOf anyAction abaRun initial
    s.object.current = some (State.mk 1 .two .two .split).encode ∧
      s.calls.countP (reports 1) = 1 ∧
      ∃ states : List (State UInt64), s.object.stored = states.map State.encode ∧
        states.IsChain (fun cur next => Retargeted cur next ∨ Advanced cur next) ∧
        states.Pairwise (fun earlier later => earlier.epoch ≤ later.epoch) := by
  obtain ⟨states, stored, -, chain, bounded⟩ := stored_epochs_agree (.content StateWire)
    (reaches_endOf _ _ abaRun initial (by decide))
  have short := congrArg List.length stored
  rw [List.length_map] at short
  obtain ⟨grows, counted⟩ := bounded (short ▸ by decide)
  refine ⟨by decide, ?_, states, stored, chain, grows⟩
  exact (counted 1).trans (by decide)

section Wraps

variable {Version : Type} [DecidableEq Version] (vs : Versions StateWire Version)
  {s : Cluster Version} {epoch : UInt64} {plan : Plan} {two : Bool}

def sized (two : Bool) : UnitCount := cond two .two .one

def settled (epoch : UInt64) (two : Bool) (plan : Plan) : State UInt64 :=
  ⟨epoch, sized two, sized two, plan⟩

theorem planNext_settled : planNext ((settled epoch two plan).retarget (sized !two)) =
    .ok (some (settled (epoch + 1) (!two) (cond two .merge .split))) := by
  have double : UnitCount.one.double = .ok .two := by decide
  have halve : UnitCount.two.halve = .ok .one := by decide
  have counts : UnitCount.one.n = 1 ∧ UnitCount.two.n = 2 := ⟨rfl, rfl⟩
  cases two <;> simp [planNext, settled, sized, State.retarget, double, halve, counts]

/-- A `Retarget` and an `Advance`, each alone, move a settled cluster on by one epoch. -/
theorem exists_advanced (held : s.object.current = some (settled epoch two plan).encode) :
    ∃ s' plan', (protocol vs).machine.Reaches anyAction s s' ∧
      s'.object = (s.object.write ((settled epoch two plan).retarget (sized !two)).encode).write
        (settled (epoch + 1) (!two) plan').encode := by
  have apart : (settled epoch two plan).target.n ≠ (sized !two).n := by
    cases two <;> exact nofun
  refine ⟨_, cond two .merge .split, reaches_endOf _ _ [.call (.retarget (sized !two)),
    .access s.calls.length, .access s.calls.length, .call .advance,
    .access (s.calls.length + 1), .access (s.calls.length + 1)] s ?_, ?_⟩ <;>
  simp [endOf, run, anyAction, Protocol.machine, Protocol.step,
    Protocol.active, protocol, access, read, CondObject.get, CondObject.compareAndSet, held, apart,
    planNext_settled, Op.start, Phase.isReturned, Calls.setPhase, Option.filter]

theorem exists_settled (n : Nat) :
    ∃ s two plan, (protocol vs).machine.Reaches anyAction initial s ∧
      s.object.current = some (settled (.ofNat n) two plan).encode := by
  induction n with
  | zero =>
    exact ⟨_, false, .none, reaches_endOf _ _ [.call (.seed .one), .access 0] _ rfl, rfl⟩
  | succ n ih =>
    obtain ⟨s, two, plan, reached, held⟩ := ih
    obtain ⟨s', plan', onward, written⟩ := exists_advanced vs held
    refine ⟨s', !two, plan', reached.trans onward, ?_⟩
    rw [written, CondObject.current_write, UInt64.ofNat_add]
    rfl

/-- After 2^64 advances the epoch is back at zero. -/
theorem epoch_wraps : ∃ s earlier, ∃ cur next : State UInt64,
    (protocol (.content StateWire)).machine.Reaches anyAction initial s ∧
      s.object.stored = earlier ++ [cur.encode] ++ [next.encode] ∧ next.epoch < cur.epoch := by
  obtain ⟨s, two, plan, reached, held⟩ := exists_settled (.content StateWire) (2 ^ 64 - 1)
  obtain ⟨s', plan', onward, written⟩ := exists_advanced (.content StateWire) held
  exact ⟨s', _, _, _, reached.trans onward, congrArg CondObject.stored written,
    by simp [settled, State.retarget]⟩

end Wraps

end Shale.Arbiter
