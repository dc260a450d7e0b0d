import Mathlib.Data.List.Chain
import Shale.Membership.Coordinator

/-!
# What the coordinators do to each other's rows

Every write of the document applies one change to the very rows it replaces. From that follows
what may happen to a row in one write, and with the freshness of incarnations what may happen to
it over a whole run: only its own coordinator edits it, others only collect it, and its lease
counter never goes back.
-/

namespace Shale.Membership

section Change

variable {cfg : Config} {d : Document} {change : Change} {id : String} {row : DocRow}

def Change.inc : Change → Option Nat
  | .boot inc | .add _ inc => some inc
  | .renew _ | .setRoles _ | .remove | .drop _ => none

/-- Removes rows of other members. -/
def Change.collects : Change → Bool
  | .drop _ => true
  | _ => false

@[simp] theorem bootRow_id (cfg : Config) (d : Document) (inc : Nat) :
    (bootRow cfg d inc).id = cfg.self.id := by
  unfold bootRow
  split <;> rfl

@[simp] theorem bootRow_inc (cfg : Config) (d : Document) (inc : Nat) :
    (bootRow cfg d inc).inc = inc := by
  unfold bootRow
  split <;> rfl

@[simp] theorem bootRow_roles (cfg : Config) (d : Document) (inc : Nat) :
    (bootRow cfg d inc).roles = bootRoles cfg (bootOf d) := by
  unfold bootRow
  split
  case h_1 founded => rw [founded]; rfl
  case h_2 joined => rw [joined]; rfl

theorem Change.unique_apply (unique : d.Unique) (change : Change) :
    (change.apply cfg d).Unique := by
  cases change with
  | boot inc | add roles inc => exact unique.upsert _
  | renew roles | setRoles roles => exact unique.editRow (by intro; rfl) _
  | remove => exact unique.remove _
  | drop expired => exact unique.dropIds expired

theorem Change.find_apply_of_ne (unique : d.Unique) (own : change.collects = false)
    (other : id ≠ cfg.self.id) : (change.apply cfg d).find id = d.find id := by
  cases change with
  | boot inc => simp [apply, Document.find_upsert, other]
  | renew roles | setRoles roles => rw [apply, Document.find_editRow (by intros; rfl), if_neg other]
  | add roles inc => simp [apply, Document.find_upsert, readdedRow, other]
  | remove => rw [apply, unique.find_remove, if_neg other]
  | drop expired => cases own

def Change.ownRow (cfg : Config) (d : Document) : Change → Option DocRow
  | .boot inc => some (d.upserted (bootRow cfg d inc))
  | .renew roles =>
    (d.find cfg.self.id).map fun row => { row with leaseGen := row.leaseGen + 1, roles }
  | .add roles inc => some (d.upserted (readdedRow cfg roles inc))
  | .setRoles roles => (d.find cfg.self.id).map fun row => { row with roles }
  | .remove => none
  | .drop expired => if cfg.self.id ∈ expired then none else d.find cfg.self.id

theorem Change.find_apply_self (unique : d.Unique) (change : Change) :
    (change.apply cfg d).find cfg.self.id = change.ownRow cfg d := by
  cases change with
  | boot inc => simp [apply, ownRow, Document.find_upsert]
  | renew roles | setRoles roles =>
    rw [apply, Document.find_editRow (by intros; rfl), if_pos rfl, ownRow]
  | add roles inc => simp [apply, ownRow, Document.find_upsert, readdedRow]
  | remove => rw [apply, unique.find_remove, if_pos rfl, ownRow]
  | drop expired => rw [apply, unique.find_dropIds, ownRow]

/-- A later state of a row: the same incarnation, and a lease counter that has not gone back. -/
structure Evolves (old new : DocRow) : Prop where
  id : new.id = old.id
  inc : new.inc = old.inc
  leaseGen : old.leaseGen ≤ new.leaseGen

theorem Evolves.refl (row : DocRow) : Evolves row row := ⟨rfl, rfl, le_rfl⟩

theorem Change.of_ownRow (left : change.ownRow cfg d = some row) :
    (∃ old ∈ d, Evolves old row) ∨ change.inc = some row.inc := by
  cases change with
  | boot fresh =>
    cases left
    exact .inr (by simp [Change.inc])
  | renew roles =>
    obtain ⟨old, held, rfl⟩ := Option.map_eq_some_iff.mp left
    exact .inl ⟨old, (Document.of_find held).1, rfl, rfl, Nat.le_succ _⟩
  | add roles fresh =>
    cases left
    exact .inr (by simp [Change.inc, readdedRow])
  | setRoles roles =>
    obtain ⟨old, held, rfl⟩ := Option.map_eq_some_iff.mp left
    exact .inl ⟨old, (Document.of_find held).1, rfl, rfl, le_rfl⟩
  | remove => cases left
  | drop expired =>
    simp only [ownRow] at left
    split at left
    · cases left
    · exact .inl ⟨row, (Document.of_find left).1, .refl row⟩

theorem Change.of_mem_apply (unique : d.Unique) (mem : row ∈ change.apply cfg d) :
    (∃ old ∈ d, Evolves old row) ∨ row.id = cfg.self.id ∧ change.inc = some row.inc := by
  have found := (change.unique_apply unique).find_of_mem mem
  by_cases own : row.id = cfg.self.id
  · rw [own, find_apply_self unique] at found
    exact (of_ownRow found).imp_right fun fresh => ⟨own, fresh⟩
  · cases collects : change.collects with
    | true =>
      cases change with
      | drop expired => exact .inl ⟨row, (List.mem_filter.mp mem).1, .refl row⟩
      | _ => cases collects
    | false =>
      rw [find_apply_of_ne unique collects own] at found
      exact .inl ⟨row, (Document.of_find found).1, .refl row⟩

end Change

def Change.MadeBy : Change → Thread → Prop
  | .boot _, th => th = .start
  | .renew _, th | .add _ _, th => th = .renew
  | .setRoles _, th => ∃ call want, th = .setRole call want
  | .remove, th => th = .close
  | .drop _, th => th = .start ∨ th = .poll

def Change.mutates : Change → Bool
  | .renew _ | .add _ _ | .setRoles _ | .remove => true
  | .boot _ | .drop _ => false

section Phase

variable {Version : Type} {phase next : Phase Version} {th : Thread} {change : Change}

def Phase.Of : Phase Version → Thread → Prop
  | .idle, _ | .entered, _ | .returned _, _ => True
  | .bootPut _ _, th | .bootGet _ _, th | .bootSet _ _ _ _, th | .bootstrapped _ _ _, th
  | .finishing _, th => th = .start
  | .observing boot _ _, th | .collecting boot _ _ _, th =>
    th = match boot with
      | some _ => .start
      | none => .poll
  | .polling, th => th = .poll
  | .recording, th => ∃ call want, th = .setRole call want
  | .waiting, th => th = .close
  | .reading _, th | .editing _ _, th => th ≠ .start ∧ th ≠ .poll
  | .writing _ _ change, th => change.MadeBy th ∧ change.mutates = true
  | .settingInc _, th | .steppingDown, th => th = .renew

def Phase.minting : Phase Version → Option Nat
  | .bootPut _ inc | .bootGet _ inc | .bootSet _ inc _ _ | .writing _ _ (.add _ inc) => some inc
  | _ => none

theorem madeBy_of_pending (of : phase.Of th) (writes : phase.pending = some change) :
    change.MadeBy th := by
  cases phase with
  | bootPut left inc | bootSet left inc cur ver =>
    cases writes
    exact of
  | collecting boot expired d ver =>
    cases writes
    cases boot with
    | none => exact .inr of
    | some boot => exact .inl of
  | writing left base other =>
    cases writes
    exact of.1
  | _ => cases writes

theorem minting_of_pending {inc : Nat} (of : phase.Of th) (writes : phase.pending = some change)
    (brings : change.inc = some inc) : phase.minting = some inc := by
  cases phase with
  | bootPut left other | bootSet left other cur ver =>
    cases writes
    exact brings
  | collecting boot expired d ver =>
    cases writes
    cases brings
  | writing left base other =>
    obtain rfl := Option.some.inj writes
    cases other with
    | add roles inc => exact brings
    | boot inc => cases of.2
    | _ => cases brings
  | _ => cases writes

/-! A closure of `mutate` makes the changes of its thread. -/

variable {cfg : Config} {proc : Proc} {fresh : Nat} {d : Document}

theorem of_edit_change (edited : edit cfg proc fresh d th = .change change) :
    change.MadeBy th ∧ change.mutates = true ∧ ∀ {inc}, change.inc = some inc → inc = fresh := by
  cases th with
  | renew =>
    simp only [edit] at edited
    split at edited
    · split at edited
      · cases edited
      · obtain rfl := Edit.change.inj edited
        exact ⟨rfl, rfl, fun brings => by cases brings⟩
    · obtain rfl := Edit.change.inj edited
      exact ⟨rfl, rfl, fun brings => (Option.some.inj brings).symm⟩
  | setRole call want =>
    simp only [edit] at edited
    split at edited
    · cases edited
    · split at edited
      · cases edited
      · obtain rfl := Edit.change.inj edited
        exact ⟨⟨call, want, rfl⟩, rfl, fun brings => by cases brings⟩
  | close =>
    simp only [edit] at edited
    split at edited
    · cases edited
    · obtain rfl := Edit.change.inj edited
      exact ⟨rfl, rfl, fun brings => by cases brings⟩
  | start | poll => cases edited

theorem of_edit_displaced (edited : edit cfg proc fresh d th = .displaced) :
    th = .renew ∧ ∃ row, d.find cfg.self.id = some row ∧ some row.inc ≠ proc.selfInc := by
  cases th with
  | renew =>
    simp only [edit] at edited
    split at edited
    case h_1 row found =>
      split at edited
      case isTrue foreign => exact ⟨rfl, row, found, foreign⟩
      case isFalse => cases edited
    case h_2 => cases edited
  | setRole call want =>
    simp only [edit] at edited
    split at edited
    · cases edited
    · split at edited <;> cases edited
  | close =>
    simp only [edit] at edited
    split at edited <;> cases edited
  | start | poll => cases edited

/-! How a thread goes on: which thread, which document it still holds, and which incarnation it
has still to write. -/

@[simp] theorem base_afterPass (boot : Option Bootstrap) :
    (afterPass boot : Phase Version).base = none := by cases boot <;> rfl

@[simp] theorem minting_afterPass (boot : Option Bootstrap) :
    (afterPass boot : Phase Version).minting = none := by cases boot <;> rfl

@[simp] theorem base_finish (th : Thread) (result : Result) :
    (finish th result : Phase Version).base = none := by cases th <;> rfl

@[simp] theorem minting_finish (th : Thread) (result : Result) :
    (finish th result : Phase Version).minting = none := by cases th <;> rfl

@[simp] theorem of_finish (th : Thread) (result : Result) :
    (finish th result : Phase Version).Of th := by cases th <;> trivial

theorem of_afterPass {boot : Option Bootstrap} (of : th = match boot with
      | some _ => .start
      | none => .poll) : (afterPass boot : Phase Version).Of th := by
  cases boot with
  | none => trivial
  | some boot => exact of

theorem Phase.Of.won (of : phase.Of th) (data : Document) (ver : Version) :
    (phase.won data ver).Of th := by
  unfold Phase.won
  split
  · exact of
  · exact of
  · exact of_afterPass of
  · exact of.1
  · trivial

theorem base_won (phase : Phase Version) (data : Document) (ver : Version) :
    (phase.won data ver).base = none ∨ (phase.won data ver).base = some (data, ver) := by
  unfold Phase.won
  split
  · exact .inr rfl
  · exact .inr rfl
  · exact .inl (base_afterPass _)
  all_goals exact .inl rfl

theorem minting_won (phase : Phase Version) (data : Document) (ver : Version) :
    (phase.won data ver).minting = none := by
  unfold Phase.won
  split
  · rfl
  · rfl
  · exact minting_afterPass _
  · rfl
  · rfl

theorem Phase.Of.conflict (of : phase.Of th) : (phase.conflict th).Of th := by
  unfold Phase.conflict
  split
  · exact of
  · unfold retryBoot
    split
    · trivial
    · exact of
  · exact of_afterPass of
  case h_4 left base change =>
    unfold retryMutate
    split
    · exact of_finish _ _
    · obtain ⟨made, mutates⟩ := of
      cases change <;> simp_all [Change.MadeBy, Change.mutates, Phase.Of]
      obtain ⟨call, want, rfl⟩ := made
      simp
  · trivial

theorem base_conflict (phase : Phase Version) (th : Thread) : (phase.conflict th).base = none := by
  unfold Phase.conflict
  split
  · rfl
  · unfold retryBoot
    split <;> rfl
  · exact base_afterPass _
  · unfold retryMutate
    split
    · exact base_finish _ _
    · rfl
  · rfl

theorem minting_conflict (phase : Phase Version) (th : Thread) :
    (phase.conflict th).minting = none ∨ (phase.conflict th).minting = phase.minting := by
  unfold Phase.conflict
  split
  · exact .inr rfl
  · unfold retryBoot
    split
    · exact .inl rfl
    · exact .inr rfl
  · exact .inl (minting_afterPass _)
  · unfold retryMutate
    split
    · exact .inl (minting_finish _ _)
    · exact .inl rfl
  · exact .inl rfl

theorem of_failed {reason : String} (of : phase.Of th) (goes : phase.failed th reason = some next) :
    next.Of th ∧ next.base = none ∧ next.minting = none := by
  unfold Phase.failed at goes
  split at goes <;> cases goes
  · exact ⟨trivial, rfl, rfl⟩
  · exact ⟨trivial, rfl, rfl⟩
  · exact ⟨trivial, rfl, rfl⟩
  · exact ⟨of_afterPass of, base_afterPass _, minting_afterPass _⟩
  · exact ⟨trivial, rfl, rfl⟩
  all_goals exact ⟨of_finish _ _, base_finish _ _, minting_finish _ _⟩

theorem of_got {read : Option (Document × Version)} (of : phase.Of th)
    (goes : phase.got read = some next) :
    next.Of th ∧ (next.base = none ∨ next.base = read) ∧
      (next.minting = none ∨ next.minting = phase.minting) := by
  unfold Phase.got at goes
  split at goes
  · split at goes <;> cases goes
    · unfold retryBoot
      split
      · exact ⟨trivial, .inl rfl, .inl rfl⟩
      · exact ⟨of, .inl rfl, .inr rfl⟩
    · exact ⟨of, .inr rfl, .inr rfl⟩
  · split at goes <;> cases goes
    · exact ⟨trivial, .inl rfl, .inl rfl⟩
    · exact ⟨of, .inr rfl, .inl rfl⟩
  · cases goes
    exact ⟨of, .inr rfl, .inl rfl⟩
  · cases goes

theorem of_local {pid : Nat} {s : State Version} {o : Shared} (of : phase.Of th)
    (goes : Local cfg pid s th phase o next) :
    o.document = s.object.document ∧ next.Of th ∧
      (next.base = none ∨ next.base = phase.base) ∧
      (o.minted = s.object.minted ∧ next.minting = none ∨
        o.minted = s.object.minted ++ [(pid, th)] ∧
          next.minting = some s.object.minted.length) := by
  cases goes with
  | refused message | done other | finished boot | skipped left base edited | adopted inc
  | steppedDown => exact ⟨rfl, trivial, .inl rfl, .inl ⟨rfl, rfl⟩⟩
  | boot unstarted => exact ⟨rfl, rfl, .inl rfl, .inr ⟨rfl, rfl⟩⟩
  | renewing => exact ⟨rfl, by simp [Phase.Of], .inl rfl, .inl ⟨rfl, rfl⟩⟩
  | polling | closing => exact ⟨rfl, rfl, .inl rfl, .inl ⟨rfl, rfl⟩⟩
  | checked call want => exact ⟨rfl, ⟨call, want, rfl⟩, .inl rfl, .inl ⟨rfl, rfl⟩⟩
  | booted boot d ver => exact ⟨rfl, of, .inr rfl, .inl ⟨rfl, rfl⟩⟩
  | observed boot d ver goes =>
    rcases goes with rfl | rfl
    · exact ⟨rfl, of_afterPass of, .inl (base_afterPass _), .inl ⟨rfl, minting_afterPass _⟩⟩
    · exact ⟨rfl, of, .inr rfl, .inl ⟨rfl, rfl⟩⟩
  | recorded call want goes =>
    rcases goes with ⟨rfl, -⟩ | rfl
    · exact ⟨rfl, trivial, .inl rfl, .inl ⟨rfl, rfl⟩⟩
    · exact ⟨rfl, by simp [Phase.Of], .inl rfl, .inl ⟨rfl, rfl⟩⟩
  | waited idle goes =>
    obtain rfl := of
    rcases goes with rfl | ⟨rfl, -⟩
    · exact ⟨rfl, trivial, .inl rfl, .inl ⟨rfl, rfl⟩⟩
    · exact ⟨rfl, by simp [Phase.Of], .inl rfl, .inl ⟨rfl, rfl⟩⟩
  | displaced left base edited =>
    exact ⟨rfl, (of_edit_displaced edited).1, .inl rfl, .inl ⟨rfl, rfl⟩⟩
  | added left base roles inc edited =>
    obtain ⟨made, mutates, fresh⟩ := of_edit_change edited
    obtain rfl := fresh rfl
    exact ⟨rfl, ⟨made, mutates⟩, .inr rfl, .inr ⟨rfl, rfl⟩⟩
  | changed left base change edited inPlace =>
    obtain ⟨made, mutates, -⟩ := of_edit_change edited
    refine ⟨rfl, ⟨made, mutates⟩, .inr rfl, .inl ⟨rfl, ?_⟩⟩
    cases change with
    | add roles inc => exact absurd rfl (inPlace roles inc)
    | _ => rfl

end Phase

def Follows (d later : Document) : Prop :=
  ∀ row ∈ d, ∀ new ∈ later, new.inc = row.inc → Evolves row new

structure Sound (cfgs : Nat → Config) (o : Shared) : Prop where
  unique : ∀ d ∈ o.document.stored, Document.Unique d
  owned : ∀ d ∈ o.document.stored, ∀ row ∈ d,
    ∃ name, o.minted[row.inc]? = some name ∧ (cfgs name.1).self.id = row.id
  follows : o.document.stored.Pairwise Follows

section Run

variable {Version : Type} {vs : Versions Document Version} {cfgs : Nat → Config}
  {o : Shared} {s : State Version} {phase : Phase Version} {name : Nat × Thread} {change : Change}

/-- What holds of one thread: it is where its program goes, the document it holds has been stored
under its version, and the incarnation it is about to write is its own and not yet stored. -/
structure Holds (vs : Versions Document Version) (name : Nat × Thread) (o : Shared)
    (phase : Phase Version) : Prop where
  of : phase.Of name.2
  base : ∀ {d ver}, phase.base = some (d, ver) → o.document.Wrote vs d ver
  minting : ∀ {inc}, phase.minting = some inc → o.minted[inc]? = some name ∧
    ∀ d ∈ o.document.stored, ∀ row ∈ d, row.inc ≠ inc

theorem Holds.plain (of : phase.Of name.2) (unbased : phase.base = none)
    (unminted : phase.minting = none) : Holds vs name o phase :=
  ⟨of, fun based => by simp [unbased] at based, fun minting => by simp [unminted] at minting⟩

theorem Sound.current_unique (sound : Sound cfgs o) : o.rows.Unique := by
  unfold Shared.rows
  cases held : o.document.current with
  | none => exact Document.unique_nil
  | some d => exact sound.unique d (List.mem_of_getLast? held)

theorem Sound.eq_of_inc {d : Document} {row other : DocRow} (sound : Sound cfgs o)
    (stored : d ∈ o.document.stored) (mem : row ∈ d) (present : other ∈ d)
    (same : other.inc = row.inc) : other = row := by
  obtain ⟨name, minted, named⟩ := sound.owned d stored row mem
  obtain ⟨name', minted', named'⟩ := sound.owned d stored other present
  obtain rfl : name' = name := by
    rw [same, minted] at minted'
    exact (Option.some.inj minted').symm
  exact List.inj_on_of_nodup_map (sound.unique d stored) present mem (named'.symm.trans named)

theorem rows_eq_of_current {d : Document} (held : o.document.current = some d) : o.rows = d := by
  rw [Shared.rows, held, Option.getD_some]

theorem mem_stored_of_mem_rows {row : DocRow} (mem : row ∈ o.rows) :
    o.rows ∈ o.document.stored := by
  cases held : o.document.current with
  | none => simp [Shared.rows, held] at mem
  | some d =>
    rw [rows_eq_of_current held]
    exact List.mem_of_getLast? held

theorem Sound.follows_rows (sound : Sound cfgs o) {d : Document}
    (stored : d ∈ o.document.stored) : Follows d o.rows := by
  intro row mem new present same
  cases held : o.document.current with
  | none => simp [Shared.rows, held] at present
  | some cur =>
    rw [rows_eq_of_current held] at present
    obtain ⟨earlier, listed⟩ := List.getLast?_eq_some_iff.mp held
    have ordered := sound.follows
    rw [listed, List.pairwise_append] at ordered
    rw [listed, List.mem_append, List.mem_singleton] at stored
    rcases stored with before | rfl
    · exact ordered.2.2 d before cur (by simp) row mem new present same
    · obtain rfl := sound.eq_of_inc (List.mem_of_getLast? held) mem present same
      exact .refl new

variable {pid : Nat} {th : Thread}

theorem Sound.minted (sound : Sound cfgs o) (extra : List (Nat × Thread)) {procs : Nat → Proc} :
    Sound cfgs ⟨o.document, o.minted ++ extra, procs⟩ := by
  refine ⟨sound.unique, fun d stored row member => ?_, sound.follows⟩
  obtain ⟨name, minted, named⟩ := sound.owned d stored row member
  obtain ⟨below, -⟩ := List.getElem?_eq_some_iff.mp minted
  exact ⟨name, by rw [List.getElem?_append_left below, minted], named⟩

theorem Holds.minted (holds : Holds vs name o phase) (extra : List (Nat × Thread))
    {procs : Nat → Proc} : Holds vs name ⟨o.document, o.minted ++ extra, procs⟩ phase := by
  refine ⟨holds.of, holds.base, fun minting => ?_⟩
  obtain ⟨own, fresh⟩ := holds.minting minting
  obtain ⟨below, -⟩ := List.getElem?_eq_some_iff.mp own
  exact ⟨by rw [List.getElem?_append_left below, own], fresh⟩

theorem Holds.stored [DecidableEq Version] (holds : Holds vs (pid, th) o phase)
    {later : CondObject Document}
    (stored : o.document.attempt vs (phase.data (cfgs pid) change) (phase.base.map Prod.snd) =
      some later) :
    phase.rows = o.rows ∧ later = o.document.write ((change.apply (cfgs pid) o.rows).encode) := by
  obtain ⟨held, rfl⟩ := CondObject.of_attempt holds.base stored
  have same : phase.rows = o.rows := by rw [Phase.rows, Shared.rows, held]
  rw [← same]
  exact ⟨rfl, rfl⟩

theorem Holds.of_mem_data (holds : Holds vs (pid, th) o phase) (sound : Sound cfgs o)
    (writes : phase.pending = some change) {row : DocRow}
    (mem : row ∈ (change.apply (cfgs pid) o.rows).encode) :
    (∃ old ∈ o.rows, Evolves old row) ∨
      row.id = (cfgs pid).self.id ∧ phase.minting = some row.inc := by
  rw [(Document.encode_perm _).mem_iff] at mem
  refine (Change.of_mem_apply sound.current_unique mem).imp_right fun ⟨own, brings⟩ => ?_
  exact ⟨own, minting_of_pending holds.of writes brings⟩

theorem Sound.write (sound : Sound cfgs o) (holds : Holds vs (pid, th) o phase)
    (writes : phase.pending = some change) :
    Sound cfgs { o with
      document := o.document.write ((change.apply (cfgs pid) o.rows).encode) } := by
  have listed : ∀ d ∈ o.document.stored ++ [(change.apply (cfgs pid) o.rows).encode],
      d ∈ o.document.stored ∨ d = (change.apply (cfgs pid) o.rows).encode := by simp
  refine ⟨fun d stored => ?_, fun d stored row member => ?_, ?_⟩
  · rcases listed d stored with old | rfl
    · exact sound.unique d old
    · exact (change.unique_apply sound.current_unique).encode
  · rcases listed d stored with old | rfl
    · exact sound.owned d old row member
    · rcases holds.of_mem_data sound writes member with ⟨old, before, evolves⟩ | ⟨own, minting⟩
      · obtain ⟨name, minted, named⟩ := sound.owned _ (mem_stored_of_mem_rows before) old before
        exact ⟨name, evolves.inc ▸ minted, named.trans evolves.id.symm⟩
      · exact ⟨(pid, th), (holds.minting minting).1, own.symm⟩
  · simp only [CondObject.write, List.pairwise_append, List.pairwise_singleton,
      List.mem_singleton, forall_eq, true_and]
    refine ⟨sound.follows, fun d stored row member new present same => ?_⟩
    rcases holds.of_mem_data sound writes present with ⟨old, before, evolves⟩ | ⟨-, minting⟩
    · have earlier := sound.follows_rows stored row member old before
        (evolves.inc.symm.trans same)
      exact ⟨evolves.id.trans earlier.id, evolves.inc.trans earlier.inc,
        earlier.leaseGen.trans evolves.leaseGen⟩
    · exact absurd same.symm ((holds.minting minting).2 d stored row member)

theorem Holds.write {other : Nat × Thread} {held : Phase Version}
    (kept : Holds vs other o held) (sound : Sound cfgs o) (holds : Holds vs (pid, th) o phase)
    (writes : phase.pending = some change) (apart : other ≠ (pid, th)) :
    Holds vs other { o with
      document := o.document.write ((change.apply (cfgs pid) o.rows).encode) } held := by
  refine ⟨kept.of, fun based => (kept.base based).write _, fun minting => ?_⟩
  obtain ⟨own, fresh⟩ := kept.minting minting
  refine ⟨own, fun d stored row mem same => ?_⟩
  simp only [CondObject.write, List.mem_append, List.mem_singleton] at stored
  rcases stored with old | rfl
  · exact fresh d old row mem same
  · rcases holds.of_mem_data sound writes mem with ⟨old, before, evolves⟩ | ⟨-, written⟩
    · exact fresh _ (mem_stored_of_mem_rows before) old before (evolves.inc.symm.trans same)
    · rw [same] at written
      exact apart (Option.some.inj (own.symm.trans (holds.minting written).1))

variable [DecidableEq Version] {event : Event} {next : Phase Version}

theorem Moved.kept {o : Shared} (moved : Moved vs cfgs s pid th event o next)
    (sound : Sound cfgs s.object) (holds : ∀ name, Holds vs name s.object (s.phase name)) :
    Sound cfgs o ∧ Holds vs (pid, th) o next ∧
      ∀ other, other ≠ (pid, th) → Holds vs other o (s.phase other) := by
  have own := holds (pid, th)
  cases moved with
  | called ready =>
    exact ⟨sound, .plain trivial rfl rfl, fun other _ => holds other⟩
  | @wrote change later writes stored =>
    obtain ⟨same, rfl⟩ := own.stored stored
    refine ⟨sound.write own writes, ⟨own.of.won _ _, fun based => ?_, fun minting => ?_⟩,
      fun other apart => (holds other).write sound own writes apart⟩
    · rcases base_won (s.phase (pid, th)) _ _ with none | some
      · rw [none] at based
        cases based
      · rw [some] at based
        cases Option.some.inj based
        rw [Phase.data, same]
        exact ⟨_, by simp [CondObject.write], rfl⟩
    · rw [minting_won] at minting
      cases minting
  | @lost change later reason next writes stored goes =>
    obtain ⟨same, rfl⟩ := own.stored stored
    obtain ⟨of, unbased, unminted⟩ := of_failed own.of goes
    exact ⟨sound.write own writes, .plain of unbased unminted,
      fun other apart => (holds other).write sound own writes apart⟩
  | conflicted writes =>
    refine ⟨sound, ⟨own.of.conflict, fun based => ?_, fun minting => ?_⟩,
      fun other _ => holds other⟩
    · rw [base_conflict] at based
      cases based
    · rcases minting_conflict (s.phase (pid, th)) th with none | kept
      · rw [none] at minting
        cases minting
      · exact own.minting (kept ▸ minting)
  | got quiet goes =>
    obtain ⟨of, based, minted⟩ := of_got own.of goes
    refine ⟨sound, ⟨of, fun {d ver} held => ?_, fun minting => ?_⟩, fun other _ => holds other⟩
    · rcases based with none | read
      · rw [none] at held
        cases held
      · rw [read] at held
        exact (CondObject.of_get held).2
    · rcases minted with none | kept
      · rw [none] at minting
        cases minting
      · exact own.minting (kept ▸ minting)
  | failed goes =>
    obtain ⟨of, unbased, unminted⟩ := of_failed own.of goes
    exact ⟨sound, .plain of unbased unminted, fun other _ => holds other⟩
  | here quiet goes =>
    obtain ⟨document, of, based, mints⟩ := of_local own.of goes
    obtain ⟨extra, minted, minting⟩ : ∃ extra, o.minted = s.object.minted ++ extra ∧
        ∀ {inc}, next.minting = some inc →
          o.minted[inc]? = some (pid, th) ∧ inc = s.object.minted.length := by
      rcases mints with ⟨same, none⟩ | ⟨more, some⟩
      · exact ⟨[], by simp [same], fun minting => by simp [none] at minting⟩
      · refine ⟨[(pid, th)], more, fun minting => ?_⟩
        cases some.symm.trans minting
        exact ⟨by simp [more], rfl⟩
    obtain ⟨_, _, procs⟩ := o
    obtain rfl := document
    obtain rfl := minted
    refine ⟨sound.minted extra, ⟨of, fun {d ver} held => ?_, fun {inc} mints => ?_⟩,
      fun other _ => (holds other).minted extra⟩
    · rcases based with none | kept
      · rw [none] at held
        cases held
      · exact own.base (kept ▸ held)
    · obtain ⟨own, rfl⟩ := minting mints
      refine ⟨own, fun d stored row mem same => ?_⟩
      obtain ⟨name, minted, -⟩ := sound.owned d stored row mem
      obtain ⟨below, -⟩ := List.getElem?_eq_some_iff.mp minted
      omega

theorem Moved.document {o : Shared} (moved : Moved vs cfgs s pid th event o next)
    (own : Holds vs (pid, th) s.object (s.phase (pid, th))) :
    o.document = s.object.document ∨
      ∃ change, (s.phase (pid, th)).pending = some change ∧
        (s.phase (pid, th)).rows = s.object.rows ∧
        o.document = s.object.document.write ((change.apply (cfgs pid) s.object.rows).encode) := by
  cases moved with
  | called ready => exact .inl rfl
  | wrote writes stored | lost writes stored goes =>
    obtain ⟨same, rfl⟩ := own.stored stored
    exact .inr ⟨_, writes, same, rfl⟩
  | conflicted writes => exact .inl rfl
  | got quiet goes => exact .inl rfl
  | failed goes => exact .inl rfl
  | here quiet goes => exact .inl (of_local own.of goes).1

theorem Moved.stored_mono {o : Shared} (moved : Moved vs cfgs s pid th event o next)
    (own : Holds vs (pid, th) s.object (s.phase (pid, th))) {d : Document}
    (stored : d ∈ s.object.document.stored) : d ∈ o.document.stored := by
  rcases moved.document own with same | ⟨change, -, -, written⟩
  · rwa [same]
  · rw [written]
    exact List.mem_append_left _ stored

theorem holds_of_reaches {allowed : State Version → (Nat × Thread) × Event → Prop}
    (reached : (machine vs cfgs).Reaches allowed initial s) :
    Sound cfgs s.object ∧ ∀ name, Holds vs name s.object (s.phase name) := by
  refine Threads.invariant (Sound cfgs) (Holds vs) reached ?_ (fun _ => .plain trivial rfl rfl) ?_
  · exact ⟨by simp [initial, CondObject.empty], by simp [initial, CondObject.empty], .nil⟩
  · rintro s ⟨pid, th⟩ event o next - sound holds - moved
    exact (of_program moved).kept sound holds

end Run

end Shale.Membership
