import Shale.Replication.Envelope
import Shale.Replication.Fanout

/-!
# What a quorum read decides

`getReplicatedUnitOnceOpts` sweeps every routed leg once: it skips the legs that are
transiently refusing or unreachable, remembers the first hard error, gathers the answers
and returns the newest envelope among them. `retryReadThroughHandoff` runs another sweep
as long as no leg has answered and none has failed for good.

The sweep asks for `n` answers but settles for any number of them.
-/

namespace Shale

open List

/-- How one read leg came back: with a stored envelope, with bytes that do not decode, with
`ErrNotFound`, or with an error of one of the three classes the sweep tells apart. -/
inductive LegAnswer where
  | value (env : Envelope)
  | undecodable
  | notFound
  | transient
  | unreachable
  | failed
deriving DecidableEq

structure ReadOpts where
  rc : ReadConsistency
  quorumAbsence : Bool

/-- The errors of a sweep; the first two make the retry sweep again. -/
inductive ReadError where
  | acquiring
  | unreachableOnly
  | hard
  | subQuorumAbsence
  | noReplicas
deriving DecidableEq

/-- What the gather loop has collected: the usable answers, `none` for a not-found one,
and the classes of errors seen. -/
structure Gathered where
  collected : List (Option Envelope)
  usable : Nat
  hard : Bool
  handoff : Bool
  unreachable : Bool

def Gathered.add (rc : ReadConsistency) (n : Nat) (g : Gathered) : LegAnswer → Gathered
  | .transient => { g with handoff := true }
  | .unreachable => { g with unreachable := true }
  | .notFound =>
    if g.usable < n then
      { g with collected := g.collected ++ [none], usable := g.usable + 1 }
    else g
  | .failed | .undecodable => { g with hard := true }
  | .value env =>
    if g.usable < n then
      { g with collected := g.collected ++ [some env], usable := g.usable + 1 }
    else if rc ≠ .nearest then { g with collected := g.collected ++ [some env] }
    else g

def gather (rc : ReadConsistency) (n : Nat) (answers : List LegAnswer) : Gathered :=
  answers.foldl (Gathered.add rc n) ⟨[], 0, false, false, false⟩

def betterOf (winner candidate : Option Envelope) : Option Envelope :=
  match candidate, winner with
  | none, _ => winner
  | some env, none => some env
  | some env, some best => if env.stamp.greater best.stamp then some env else some best

def Envelope.zero : Envelope := ⟨Stamp.zero, []⟩

/-- `getReplicatedUnitOnceOpts` on the answers in the order they arrive: the envelope the
sweep decides on. Its payload is the value returned, an empty one `ErrNotFound`. -/
def getReplicatedUnitOnce (opts : ReadOpts) (stableR : Nat) (answers : List LegAnswer) :
    Except ReadError Envelope :=
  if answers = [] then .error .noReplicas
  else
    let n := min (requiredReadReplicas opts.rc stableR) answers.length
    let g := gather opts.rc n answers
    match g.collected with
    | [] =>
      if g.hard then .error .hard
      else if g.handoff then .error .acquiring
      else if g.unreachable then .error .unreachableOnly
      else if opts.quorumAbsence then .error .subQuorumAbsence
      else .ok Envelope.zero
    | first :: rest =>
      match rest.foldl betterOf first with
      | some env => .ok env
      | none =>
        if opts.quorumAbsence ∧ g.usable < n then .error .subQuorumAbsence
        else .ok Envelope.zero

/-- `retryReadThroughHandoff` over the sweeps its budget allows. -/
def getReplicatedUnit (opts : ReadOpts) (stableR : Nat) :
    List (List LegAnswer) → Except ReadError Envelope
  | [] => .error .acquiring
  | [answers] => getReplicatedUnitOnce opts stableR answers
  | answers :: rest =>
    match getReplicatedUnitOnce opts stableR answers with
    | .error .acquiring | .error .unreachableOnly => getReplicatedUnit opts stableR rest
    | result => result

section Sweep

variable {rc : ReadConsistency} {n : Nat} {answers : List LegAnswer} {g : Gathered}

def LegAnswer.answered : LegAnswer → Bool
  | value _ | notFound => true
  | undecodable | transient | unreachable | failed => false

def LegAnswer.hard : LegAnswer → Bool
  | undecodable | failed => true
  | value _ | notFound | transient | unreachable => false

theorem collected_sublist_add (rc : ReadConsistency) (n : Nat) (g : Gathered)
    (answer : LegAnswer) : g.collected.Sublist (g.add rc n answer).collected := by
  cases answer <;> simp only [Gathered.add]
  case value env =>
    split
    · exact sublist_append_left _ _
    · split
      · exact sublist_append_left _ _
      · exact List.Sublist.refl _
  case notFound =>
    split
    · exact sublist_append_left _ _
    · exact List.Sublist.refl _
  all_goals exact List.Sublist.refl _

theorem collected_sublist_foldl (rc : ReadConsistency) (n : Nat) (answers : List LegAnswer)
    (g : Gathered) : g.collected.Sublist (answers.foldl (Gathered.add rc n) g).collected := by
  induction answers generalizing g with
  | nil => exact List.Sublist.refl _
  | cons answer rest ih =>
    exact (collected_sublist_add rc n g answer).trans (ih _)

theorem mem_collected_of_value (strict : rc ≠ .nearest) {env : Envelope}
    (arrives : .value env ∈ answers) :
    some env ∈ (answers.foldl (Gathered.add rc n) g).collected := by
  induction answers generalizing g with
  | nil => cases arrives
  | cons answer rest ih =>
    rcases mem_cons.mp arrives with rfl | later
    · apply (collected_sublist_foldl rc n rest _).subset
      simp only [Gathered.add]
      split <;> simp
    · exact ih later

theorem none_of_mem_collected (silent : ∀ env, .value env ∉ answers)
    (before : ∀ entry ∈ g.collected, entry = none) :
    ∀ entry ∈ (answers.foldl (Gathered.add rc n) g).collected, entry = none := by
  induction answers generalizing g with
  | nil => exact before
  | cons answer rest ih =>
    apply ih fun env member => silent env (by simp [member])
    cases answer with
    | value env => exact absurd (by simp) (silent env)
    | notFound =>
      simp only [Gathered.add]
      split
      · intro entry member
        rcases mem_append.mp member with old | new
        · exact before entry old
        · exact mem_singleton.mp new
      · exact before
    | _ => exact before

theorem usable_le_foldl (counted : g.usable ≤ g.collected.length) :
    (answers.foldl (Gathered.add rc n) g).usable ≤
      (answers.foldl (Gathered.add rc n) g).collected.length := by
  induction answers generalizing g with
  | nil => exact counted
  | cons answer rest ih =>
    apply ih
    cases answer <;> simp only [Gathered.add]
    case value env =>
      split
      · simpa using counted
      · split
        · simp only [length_append, length_cons, length_nil]
          omega
        · exact counted
    case notFound =>
      split
      · simpa using counted
      · exact counted
    all_goals exact counted

theorem flags_add (rc : ReadConsistency) (n : Nat) (g : Gathered) (answer : LegAnswer) :
    (g.add rc n answer).hard = (g.hard || answer.hard) ∧
      (g.add rc n answer).handoff = (g.handoff || decide (answer = .transient)) ∧
      (g.add rc n answer).unreachable = (g.unreachable || decide (answer = .unreachable)) := by
  cases answer with
  | value env =>
    simp only [Gathered.add]
    split
    · simp [LegAnswer.hard]
    · split <;> simp [LegAnswer.hard]
  | notFound =>
    simp only [Gathered.add]
    split <;> simp [LegAnswer.hard]
  | undecodable | transient | unreachable | failed => simp [Gathered.add, LegAnswer.hard]

theorem flags_foldl (rc : ReadConsistency) (n : Nat) (answers : List LegAnswer) (g : Gathered) :
    (answers.foldl (Gathered.add rc n) g).hard = (g.hard || answers.any LegAnswer.hard) ∧
      (answers.foldl (Gathered.add rc n) g).handoff =
        (g.handoff || answers.any fun answer => decide (answer = .transient)) ∧
      (answers.foldl (Gathered.add rc n) g).unreachable =
        (g.unreachable || answers.any fun answer => decide (answer = .unreachable)) := by
  induction answers generalizing g with
  | nil => simp
  | cons answer rest ih =>
    obtain ⟨hard, handoff, unreachable⟩ := ih (g.add rc n answer)
    obtain ⟨hardNow, handoffNow, unreachableNow⟩ := flags_add rc n g answer
    rw [foldl_cons, hard, handoff, unreachable, hardNow, handoffNow, unreachableNow]
    simp [Bool.or_assoc]

theorem usable_add (rc : ReadConsistency) (n : Nat) (g : Gathered) (answer : LegAnswer) :
    (g.add rc n answer).usable =
      if answer.answered = true ∧ g.usable < n then g.usable + 1 else g.usable := by
  cases answer with
  | value env =>
    simp only [Gathered.add, LegAnswer.answered, true_and]
    split
    · rfl
    · split <;> rfl
  | notFound =>
    simp only [Gathered.add, LegAnswer.answered, true_and]
    split <;> rfl
  | undecodable | transient | unreachable | failed => simp [Gathered.add, LegAnswer.answered]

theorem usable_foldl (rc : ReadConsistency) (answers : List LegAnswer) (below : g.usable ≤ n) :
    (answers.foldl (Gathered.add rc n) g).usable =
      min n (g.usable + answers.countP LegAnswer.answered) := by
  induction answers generalizing g with
  | nil => simp [below]
  | cons answer rest ih =>
    have now := usable_add rc n g answer
    have still : (g.add rc n answer).usable ≤ n := by
      rw [now]
      split <;> omega
    rw [foldl_cons, ih still, countP_cons, now]
    split_ifs <;> simp_all <;> omega

theorem length_collected (silent : ∀ env, .value env ∉ answers)
    (counted : g.collected.length = g.usable) :
    (answers.foldl (Gathered.add rc n) g).collected.length =
      (answers.foldl (Gathered.add rc n) g).usable := by
  induction answers generalizing g with
  | nil => exact counted
  | cons answer rest ih =>
    refine ih (fun env member => silent env (mem_cons_of_mem _ member)) ?_
    cases answer with
    | value env => exact absurd (mem_cons_self ..) (silent env)
    | notFound =>
      simp only [Gathered.add]
      split
      · simpa using counted
      · exact counted
    | undecodable | transient | unreachable | failed => exact counted

theorem sweep_pos (rc : ReadConsistency) {stableR : Nat} (some_r : 0 < stableR)
    (asked : answers ≠ []) : 0 < min (requiredReadReplicas rc stableR) answers.length := by
  have := length_pos_iff.mpr asked
  cases rc <;> simp only [requiredReadReplicas] <;> omega

variable {opts : ReadOpts} {collected : List (Option Envelope)} {decided : Envelope}
  {answer : LegAnswer} {first : Option Envelope}

theorem collected_ne_nil_of_answered (positive : 0 < n) (arrives : answer ∈ answers)
    (answered : answer.answered = true) : (gather rc n answers).collected ≠ [] := by
  have counted : (gather rc n answers).usable ≤ (gather rc n answers).collected.length :=
    usable_le_foldl le_rfl
  have heard : 0 < answers.countP LegAnswer.answered := countP_pos_iff.mpr ⟨_, arrives, answered⟩
  have usable : (gather rc n answers).usable = min n (0 + answers.countP LegAnswer.answered) :=
    usable_foldl rc answers (Nat.zero_le n)
  exact length_pos_iff.mp (by omega)

theorem foldl_betterOf_of_none (absent : ∀ entry ∈ first :: collected, entry = none) :
    collected.foldl betterOf first = none := by
  induction collected generalizing first with
  | nil => exact absent first (by simp)
  | cons candidate rest ih =>
    obtain rfl := absent candidate (by simp)
    exact ih fun entry member => absent entry (by
      rcases mem_cons.mp member with here | later
      · simp [here, betterOf]
      · simp [later])

theorem getReplicatedUnitOnce_of_no_value {opts : ReadOpts} {stableR : Nat}
    (silent : ∀ env, .value env ∉ answers) (asked : answers ≠ []) :
    getReplicatedUnitOnce opts stableR answers =
      if min (min (requiredReadReplicas opts.rc stableR) answers.length)
          (answers.countP LegAnswer.answered) = 0 then
        if answers.any LegAnswer.hard then .error .hard
        else if answers.any fun answer => decide (answer = .transient) then .error .acquiring
        else if answers.any fun answer => decide (answer = .unreachable) then
          .error .unreachableOnly else if opts.quorumAbsence then .error .subQuorumAbsence
        else .ok Envelope.zero else if opts.quorumAbsence ∧
          min (min (requiredReadReplicas opts.rc stableR) answers.length)
            (answers.countP LegAnswer.answered) <
            min (requiredReadReplicas opts.rc stableR) answers.length then .error .subQuorumAbsence
      else .ok Envelope.zero := by
  unfold getReplicatedUnitOnce
  rw [if_neg asked]
  dsimp only
  generalize min (requiredReadReplicas opts.rc stableR) answers.length = n
  obtain ⟨hard, handoff, unreachable⟩ :=
    flags_foldl opts.rc n answers ⟨[], 0, false, false, false⟩
  have usable : (gather opts.rc n answers).usable = min n (answers.countP LegAnswer.answered) := by
    rw [gather, usable_foldl opts.rc answers (Nat.zero_le n), Nat.zero_add]
  have length : (gather opts.rc n answers).collected.length = (gather opts.rc n answers).usable :=
    length_collected silent rfl
  have absent : ∀ entry ∈ (gather opts.rc n answers).collected, entry = none :=
    none_of_mem_collected silent (by simp)
  simp only [Bool.false_or] at hard handoff unreachable
  rw [← usable, ← length]
  cases found : (gather opts.rc n answers).collected with
  | nil => simp only [gather, hard, handoff, unreachable, length_nil, ↓reduceIte]
  | cons first rest =>
    rw [found] at absent length
    simp [foldl_betterOf_of_none absent]

theorem getReplicatedUnitOnce_of_absent {stableR : Nat} (some_r : 0 < stableR)
    (plain : opts.quorumAbsence = false) (silent : ∀ env, .value env ∉ answers)
    (arrives : .notFound ∈ answers) :
    getReplicatedUnitOnce opts stableR answers = .ok Envelope.zero := by
  have asked := ne_nil_of_mem arrives
  have positive := sweep_pos opts.rc some_r asked
  have heard : 0 < answers.countP LegAnswer.answered := countP_pos_iff.mpr ⟨_, arrives, rfl⟩
  rw [getReplicatedUnitOnce_of_no_value silent asked, if_neg (by omega)]
  simp [plain]

theorem getReplicatedUnitOnce_of_unanswered {stableR : Nat}
    (silent : ∀ answer ∈ answers, answer.answered = false) (asked : answers ≠ []) :
    if answers.any LegAnswer.hard then getReplicatedUnitOnce opts stableR answers = .error .hard
    else getReplicatedUnitOnce opts stableR answers = .error .acquiring ∨
      getReplicatedUnitOnce opts stableR answers = .error .unreachableOnly := by
  have unheard : answers.countP LegAnswer.answered = 0 :=
    countP_eq_zero.mpr fun answer member => by simp [silent answer member]
  rw [getReplicatedUnitOnce_of_no_value (fun env member => nomatch silent _ member) asked, unheard,
    Nat.min_zero, if_pos rfl]
  obtain ⟨answer, rest, rfl⟩ := exists_cons_of_ne_nil asked
  have refused := silent answer (by simp)
  cases answer with
  | value | notFound => cases refused
  | undecodable | failed => simp [LegAnswer.hard]
  | transient | unreachable =>
    simp only [any_cons, decide_true, Bool.true_or, ↓reduceIte]
    split_ifs <;> simp

theorem decided_of_answered {stableR : Nat} (some_r : 0 < stableR) (arrives : answer ∈ answers)
    (answered : answer.answered = true) :
    (∃ env, getReplicatedUnitOnce opts stableR answers = .ok env) ∨
      getReplicatedUnitOnce opts stableR answers = .error .subQuorumAbsence := by
  have asked := ne_nil_of_mem arrives
  have positive := sweep_pos opts.rc some_r asked
  have collected : (gather opts.rc (min (requiredReadReplicas opts.rc stableR) answers.length)
      answers).collected ≠ [] :=
    collected_ne_nil_of_answered positive arrives answered
  obtain ⟨first, rest, found⟩ := exists_cons_of_ne_nil collected
  simp only [getReplicatedUnitOnce, asked, ↓reduceIte, found]
  cases rest.foldl betterOf first with
  | some env => exact .inl ⟨env, rfl⟩
  | none =>
    dsimp only
    split
    · exact .inr rfl
    · exact .inl ⟨_, rfl⟩

theorem getReplicatedUnitOnce_of_answered {stableR : Nat} (some_r : 0 < stableR)
    (arrives : answer ∈ answers) (answered : answer.answered = true) :
    getReplicatedUnitOnce opts stableR answers ≠ .error .acquiring ∧
      getReplicatedUnitOnce opts stableR answers ≠ .error .unreachableOnly := by
  have decides : (∃ env, getReplicatedUnitOnce opts stableR answers = .ok env) ∨
      getReplicatedUnitOnce opts stableR answers = .error .subQuorumAbsence :=
    decided_of_answered some_r arrives answered
  rcases decides with ⟨env, decides⟩ | decides
  · rw [decides]
    exact ⟨nofun, nofun⟩
  · rw [decides]
    exact ⟨nofun, nofun⟩

theorem foldl_betterOf_ge {env : Envelope} (mem : some env ∈ first :: collected) :
    ∃ best, collected.foldl betterOf first = some best ∧ env.stamp ≤ best.stamp := by
  induction collected generalizing first env with
  | nil =>
    obtain rfl : some env = first := by simpa using mem
    exact ⟨env, rfl, le_rfl⟩
  | cons candidate rest ih =>
    have better : ∀ held, some held = first ∨ some held = candidate →
        ∃ best, betterOf first candidate = some best ∧ held.stamp ≤ best.stamp := by
      rintro held (rfl | rfl)
      · cases candidate with
        | none => exact ⟨held, rfl, le_rfl⟩
        | some new =>
          simp only [betterOf]
          split
          case isTrue newer =>
            exact ⟨new, rfl, le_of_lt (Stamp.greater_iff.mp newer)⟩
          case isFalse => exact ⟨held, rfl, le_rfl⟩
      · cases first with
        | none => exact ⟨held, rfl, le_rfl⟩
        | some old =>
          simp only [betterOf]
          split
          case isTrue => exact ⟨held, rfl, le_rfl⟩
          case isFalse older =>
            refine ⟨old, rfl, ?_⟩
            rw [← not_lt, ← Stamp.greater_iff]
            exact older
    rcases mem_cons.mp mem with here | later
    · obtain ⟨best, chosen, le⟩ := better env (.inl here)
      obtain ⟨final, decided, le'⟩ := @ih (betterOf first candidate) best
        (by rw [chosen]; simp)
      exact ⟨final, decided, le.trans le'⟩
    · rcases mem_cons.mp later with here | later
      · obtain ⟨best, chosen, le⟩ := better env (.inr here)
        obtain ⟨final, decided, le'⟩ := @ih (betterOf first candidate) best
          (by rw [chosen]; simp)
        exact ⟨final, decided, le.trans le'⟩
      · exact ih (by simp [later])

theorem getReplicatedUnitOnce_ge {stableR : Nat} {env : Envelope} (strict : opts.rc ≠ .nearest)
    (arrives : .value env ∈ answers)
    (returned : getReplicatedUnitOnce opts stableR answers = .ok decided) :
    env.stamp ≤ decided.stamp := by
  have asked := ne_nil_of_mem arrives
  have collected : some env ∈ (gather opts.rc
      (min (requiredReadReplicas opts.rc stableR) answers.length) answers).collected :=
    mem_collected_of_value strict arrives
  simp only [getReplicatedUnitOnce, asked, ↓reduceIte] at returned
  split at returned
  case h_1 empty =>
    rw [empty] at collected
    cases collected
  case h_2 first rest found =>
    rw [found] at collected
    obtain ⟨best, chosen, le⟩ := foldl_betterOf_ge collected
    simp only [chosen, Except.ok.injEq] at returned
    rw [← returned]
    exact le

theorem heard_of_mem_collected {entry : Option Envelope}
    (mem : entry ∈ (answers.foldl (Gathered.add rc n) g).collected) :
    entry ∈ g.collected ∨ entry.elim .notFound .value ∈ answers := by
  induction answers generalizing g with
  | nil => exact .inl mem
  | cons answer rest ih =>
    rcases ih mem with earlier | later
    · have added : entry ∈ g.collected ∨ entry.elim .notFound .value = answer := by
        cases answer <;> simp only [Gathered.add] at earlier
        case value new | notFound => cases entry <;> split_ifs at earlier <;> simp_all
        all_goals exact .inl earlier
      rcases added with old | rfl
      · exact .inl old
      · exact .inr (by simp)
    · exact .inr (by simp [later])

theorem mem_of_foldl_betterOf {best : Envelope}
    (chosen : collected.foldl betterOf first = some best) : some best ∈ first :: collected := by
  induction collected generalizing first with
  | nil => simp_all
  | cons candidate rest ih =>
    have among : betterOf first candidate = first ∨ betterOf first candidate = candidate := by
      cases candidate with
      | none => exact .inl rfl
      | some new =>
        cases first with
        | none => exact .inr rfl
        | some old =>
          simp only [betterOf]
          split
          · exact .inr rfl
          · exact .inl rfl
    have found := ih chosen
    rcases among with same | same <;> rw [same] at found <;> simp at found ⊢ <;> tauto

theorem getReplicatedUnitOnce_of_value {stableR : Nat} {env : Envelope}
    (strict : opts.rc ≠ .nearest) (arrives : .value env ∈ answers) :
    ∃ decided, getReplicatedUnitOnce opts stableR answers = .ok decided ∧
      .value decided ∈ answers ∧ env.stamp ≤ decided.stamp := by
  have asked := ne_nil_of_mem arrives
  have collected : some env ∈ (gather opts.rc
      (min (requiredReadReplicas opts.rc stableR) answers.length) answers).collected :=
    mem_collected_of_value strict arrives
  obtain ⟨first, rest, found⟩ := exists_cons_of_ne_nil (ne_nil_of_mem collected)
  rw [found] at collected
  obtain ⟨best, chosen, le⟩ := foldl_betterOf_ge collected
  refine ⟨best, by simp [getReplicatedUnitOnce, asked, found, chosen], ?_, le⟩
  have member := mem_of_foldl_betterOf chosen
  rw [← found] at member
  exact (heard_of_mem_collected member).resolve_left (by simp)

section Decided

variable {stableR : Nat} (returned : getReplicatedUnitOnce opts stableR answers = .ok decided)
include returned

theorem decided_cases : .value decided ∈ answers ∨ decided = Envelope.zero ∧
    (opts.quorumAbsence = true → min (requiredReadReplicas opts.rc stableR) answers.length ≤
      answers.countP LegAnswer.answered) := by
  unfold getReplicatedUnitOnce at returned
  split at returned
  · cases returned
  · dsimp only at returned
    split at returned
    · split_ifs at returned with _ _ _ unguarded
      exact .inr ⟨(Except.ok.inj returned).symm, (absurd · unguarded)⟩
    case h_2 first rest found =>
      split at returned
      case h_1 best chosen =>
        cases returned
        have member := mem_of_foldl_betterOf chosen
        rw [← found] at member
        exact .inl ((heard_of_mem_collected member).resolve_left (by simp))
      case h_2 =>
        split_ifs at returned with few
        refine .inr ⟨(Except.ok.inj returned).symm, fun guarded => ?_⟩
        simp only [guarded, true_and, not_lt] at few
        rw [gather, usable_foldl _ _ (Nat.zero_le _), Nat.zero_add] at few
        omega

theorem heard_of_getReplicatedUnitOnce : decided = Envelope.zero ∨ .value decided ∈ answers :=
  (decided_cases returned).symm.imp_left And.left

end Decided

theorem witnessed_of_getReplicatedUnitOnce {stableR : Nat} (guarded : opts.quorumAbsence = true)
    (returned : getReplicatedUnitOnce opts stableR answers = .ok decided) :
    .value decided ∈ answers ∨ min (requiredReadReplicas opts.rc stableR) answers.length ≤
      answers.countP LegAnswer.answered :=
  (decided_cases returned).imp_right fun absent => absent.2 guarded

/-- The sweep hears the envelope and nothing newer; where one answer is enough, nothing
else. -/
def HearsNewest (rc : ReadConsistency) (env : Envelope) (answers : List LegAnswer) : Prop :=
  .value env ∈ answers ∧ ∀ answer ∈ answers, answer.answered = true →
    answer = .value env ∨ rc ≠ .nearest ∧ ∀ other, answer = .value other → other.stamp < env.stamp

theorem getReplicatedUnitOnce_of_newest {stableR : Nat} (some_r : 0 < stableR) {env : Envelope}
    (hears : HearsNewest opts.rc env answers) :
    getReplicatedUnitOnce opts stableR answers = .ok env := by
  obtain ⟨arrives, newest⟩ := hears
  have asked := ne_nil_of_mem arrives
  have positive := sweep_pos opts.rc some_r asked
  -- the envelope is collected: always at a strict consistency, and else as the only answer
  have collected : some env ∈ (gather opts.rc
      (min (requiredReadReplicas opts.rc stableR) answers.length) answers).collected := by
    by_cases strict : opts.rc ≠ .nearest
    · exact mem_collected_of_value strict arrives
    · have only : ∀ answer ∈ answers, answer.answered = true → answer = .value env :=
        fun answer member answered =>
          (newest answer member answered).resolve_right fun other => strict other.1
      have some_ : (gather opts.rc (min (requiredReadReplicas opts.rc stableR) answers.length)
          answers).collected ≠ [] :=
        collected_ne_nil_of_answered positive arrives rfl
      obtain ⟨entry, member⟩ := exists_mem_of_ne_nil _ some_
      cases entry with
      | none =>
        have absent := (heard_of_mem_collected member).resolve_left (by simp)
        cases only _ absent rfl
      | some other =>
        have heard := (heard_of_mem_collected member).resolve_left (by simp)
        obtain rfl := LegAnswer.value.inj (only _ heard rfl)
        exact member
  obtain ⟨first, rest, found⟩ := exists_cons_of_ne_nil (ne_nil_of_mem collected)
  rw [found] at collected
  obtain ⟨best, chosen, le⟩ := foldl_betterOf_ge collected
  have member := mem_of_foldl_betterOf chosen
  rw [← found] at member
  have heard := (heard_of_mem_collected member).resolve_left (by simp)
  obtain rfl : best = env := by
    rcases newest _ heard rfl with same | ⟨-, older⟩
    · exact LegAnswer.value.inj same
    · exact absurd le (older best rfl).not_ge
  simp [getReplicatedUnitOnce, asked, found, chosen]

end Sweep

variable {stableR : Nat} {opts : ReadOpts}

theorem getReplicatedUnit_of_silent {earlier : List (List LegAnswer)} (last : List LegAnswer)
    (silent : ∀ answers ∈ earlier, answers ≠ [] ∧ ∀ answer ∈ answers, answer.answered = false ∧
      answer.hard = false) :
    getReplicatedUnit opts stableR (earlier ++ [last]) =
      getReplicatedUnitOnce opts stableR last := by
  induction earlier with
  | nil => rfl
  | cons answers rest ih =>
    obtain ⟨asked, refused⟩ := silent answers (by simp)
    have soft : answers.any LegAnswer.hard = false := by
      rw [any_eq_false]
      exact fun answer member => by simp [(refused answer member).2]
    have retried := @getReplicatedUnitOnce_of_unanswered answers opts stableR
      (fun answer member => (refused answer member).1) asked
    simp only [soft, Bool.false_eq_true, ↓reduceIte] at retried
    have next := ih fun others member => silent others (by simp [member])
    obtain ⟨second, others, split⟩ : ∃ second others, rest ++ [last] = second :: others :=
      exists_cons_of_ne_nil (by simp)
    rw [cons_append, split, getReplicatedUnit, ← split, next]
    · rcases retried with again | again <;> rw [again]
    · exact cons_ne_nil _ _

theorem exists_sweep_of_getReplicatedUnit {sweeps : List (List LegAnswer)} {decided : Envelope}
    (returned : getReplicatedUnit opts stableR sweeps = .ok decided) :
    ∃ answers ∈ sweeps, getReplicatedUnitOnce opts stableR answers = .ok decided := by
  induction sweeps with
  | nil => cases returned
  | cons answers rest ih =>
    cases rest with
    | nil => exact ⟨answers, by simp, returned⟩
    | cons next later =>
      simp only [getReplicatedUnit] at returned
      split at returned
      · obtain ⟨found, mem, decides⟩ := ih returned
        exact ⟨found, by simp [mem], decides⟩
      · obtain ⟨found, mem, decides⟩ := ih returned
        exact ⟨found, by simp [mem], decides⟩
      · exact ⟨answers, by simp, returned⟩

end Shale
