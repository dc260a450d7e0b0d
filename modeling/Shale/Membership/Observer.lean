import Mathlib.Data.List.Count
import Mathlib.Data.List.Induction
import Shale.Foundation.Streak
import Shale.Membership.Document

/-!
# One observer of the membership document

A coordinator judges the others by its own passes over the document: `expireSilent` keeps, for
each row, the pair of incarnation and lease counter it has read last and how many passes in a
row it has been the same. What is left of the document, with the coordinator itself put back if
its row is gone, is published as one pair of a view and a ring.
-/

namespace Shale.Membership

open List Function

/-- What a coordinator is constructed and started with. -/
structure Config where
  self : Node
  initialRoles : Role
  declaredUnitCount : Nat
  expiryPolls : Int

def defaultExpiryPolls : Nat := 5

def Config.polls (cfg : Config) : Nat :=
  if cfg.expiryPolls ≤ 0 then defaultExpiryPolls else cfg.expiryPolls.toNat

theorem Config.polls_pos (cfg : Config) : 0 < cfg.polls := by
  unfold polls defaultExpiryPolls
  split <;> omega

/-- A row, reduced to what expiry turns on. -/
structure LeaseRow where
  id : String
  inc : Nat
  gen : Nat
deriving DecidableEq

def LeaseRow.pair (row : LeaseRow) : Nat × Nat := (row.inc, row.gen)

def DocRow.lease (row : DocRow) : LeaseRow := ⟨row.id, row.inc, row.leaseGen⟩

/-- The pair read last, and for how many passes in a row it has not moved. -/
structure LeaseObservation where
  inc : Nat
  gen : Nat
  stale : Nat
deriving DecidableEq

def LeaseObservation.record (obs : LeaseObservation) : (Nat × Nat) × Nat :=
  ((obs.inc, obs.gen), obs.stale)

abbrev Tracker := String → Option LeaseObservation

def expireRow (prev : Tracker) (expiryPolls : Nat) (self : String)
    (acc : Tracker × List String) (row : LeaseRow) : Tracker × List String :=
  if row.id = self then acc
  else
    match prev row.id with
    | none => (update acc.1 row.id (some ⟨row.inc, row.gen, 0⟩), acc.2)
    | some obs =>
      if obs.inc ≠ row.inc ∨ obs.gen ≠ row.gen then
        (update acc.1 row.id (some ⟨row.inc, row.gen, 0⟩), acc.2)
      else
        (update acc.1 row.id (some { obs with stale := obs.stale + 1 }),
          if expiryPolls ≤ obs.stale + 1 then acc.2 ++ [row.id] else acc.2)

/-- Fold one pass over the record of the passes before it: the new record, and the IDs to treat
as expired. -/
def expireSilent (prev : Tracker) (rows : List LeaseRow) (expiryPolls : Nat) (self : String) :
    Tracker × List String :=
  rows.foldl (expireRow prev expiryPolls self) (fun _ => none, [])

section Expiry

variable (prev : Tracker) (expiryPolls : Nat) (self : String) {id : String} {row : LeaseRow}
  {rows : List LeaseRow}

theorem expireRow_of_ne (apart : id ≠ row.id) (acc : Tracker × List String) :
    (expireRow prev expiryPolls self acc row).1 id = acc.1 id ∧
      (id ∈ (expireRow prev expiryPolls self acc row).2 ↔ id ∈ acc.2) := by
  unfold expireRow
  split
  · exact ⟨rfl, .rfl⟩
  split
  · exact ⟨update_of_ne apart _ _, .rfl⟩
  split
  · exact ⟨update_of_ne apart _ _, .rfl⟩
  refine ⟨update_of_ne apart _ _, ?_⟩
  split
  · simp [apart]
  · exact .rfl

theorem expireRow_record (apart : row.id ≠ self) (acc : Tracker × List String) :
    ((expireRow prev expiryPolls self acc row).1 row.id).map LeaseObservation.record =
      Streak.next ((prev row.id).map LeaseObservation.record) (some row.pair) := by
  unfold expireRow
  rw [if_neg apart]
  cases prev row.id with
  | none => simp [Streak.next, LeaseObservation.record, LeaseRow.pair]
  | some obs =>
    simp only [Option.map_some, Streak.next, LeaseObservation.record, LeaseRow.pair, Prod.mk.injEq]
    split
    case isTrue moved =>
      rw [if_neg (by tauto)]
      simp [LeaseObservation.record]
    case isFalse still =>
      push Not at still
      rw [if_pos still]
      simp [LeaseObservation.record, still]

theorem mem_expireRow (apart : row.id ≠ self) (positive : 0 < expiryPolls)
    (acc : Tracker × List String) (unlisted : row.id ∉ acc.2) :
    row.id ∈ (expireRow prev expiryPolls self acc row).2 ↔
      ∃ obs, (expireRow prev expiryPolls self acc row).1 row.id = some obs ∧
        expiryPolls ≤ obs.stale := by
  unfold expireRow
  rw [if_neg apart]
  split
  · simp [unlisted]
    omega
  case h_2 obs recorded =>
    split
    · simp [unlisted]
      omega
    · by_cases due : expiryPolls ≤ obs.stale + 1 <;> simp [due, unlisted]

theorem expireSilent_of_unread (unread : id ∉ rows.map LeaseRow.id) :
    (expireSilent prev rows expiryPolls self).1 id = none ∧
      id ∉ (expireSilent prev rows expiryPolls self).2 := by
  induction rows using List.reverseRecOn with
  | nil => simp [expireSilent]
  | append_singleton earlier row ih =>
    simp only [map_append, map_cons, map_nil, mem_append,
      mem_singleton, not_or] at unread
    have before := ih unread.1
    simp only [expireSilent, foldl_append, foldl_cons, foldl_nil] at before ⊢
    rw [(expireRow_of_ne prev expiryPolls self unread.2 _).1,
      (expireRow_of_ne prev expiryPolls self unread.2 _).2]
    exact before

theorem expireSilent_record (unique : (rows.map LeaseRow.id).Nodup) (id : String) :
    ((expireSilent prev rows expiryPolls self).1 id).map LeaseObservation.record =
      if id = self then none else Streak.next ((prev id).map LeaseObservation.record)
        ((rows.find? fun row => row.id = id).map LeaseRow.pair) := by
  induction rows using List.reverseRecOn with
  | nil => simp [expireSilent, Streak.next]
  | append_singleton earlier row ih =>
    rw [map_append, nodup_append] at unique
    obtain ⟨unique, -, apart⟩ := unique
    rw [List.find?_append]
    by_cases named : id = row.id
    · subst named
      have unread : row.id ∉ earlier.map LeaseRow.id := fun listed =>
        apart row.id listed row.id (by simp) rfl
      obtain ⟨absent, -⟩ := expireSilent_of_unread prev expiryPolls self unread
      have unfound : earlier.find? (fun other => other.id = row.id) = none := by
        rw [List.find?_eq_none]
        intro other mem
        simpa using apart other.id (mem_map_of_mem mem) row.id (by simp)
      simp only [expireSilent, foldl_append, foldl_cons, foldl_nil] at absent ⊢
      by_cases own : row.id = self
      · simp [expireRow, own, own ▸ absent]
      · rw [expireRow_record prev expiryPolls self own, if_neg own]
        simp [unfound]
    · have before := ih unique
      simp only [expireSilent, foldl_append, foldl_cons, foldl_nil] at before ⊢
      rw [(expireRow_of_ne prev expiryPolls self named _).1, before]
      simp [Ne.symm named]

theorem mem_expireSilent (unique : (rows.map LeaseRow.id).Nodup) (positive : 0 < expiryPolls)
    (id : String) :
    id ∈ (expireSilent prev rows expiryPolls self).2 ↔
      ∃ obs, (expireSilent prev rows expiryPolls self).1 id = some obs ∧
        expiryPolls ≤ obs.stale := by
  induction rows using List.reverseRecOn with
  | nil => simp [expireSilent]
  | append_singleton earlier row ih =>
    rw [map_append, nodup_append] at unique
    obtain ⟨unique, -, apart⟩ := unique
    have unread : row.id ∉ earlier.map LeaseRow.id := fun listed =>
      apart row.id listed row.id (by simp) rfl
    obtain ⟨-, unlisted⟩ := expireSilent_of_unread prev expiryPolls self unread
    have before := ih unique
    simp only [expireSilent, foldl_append, foldl_cons, foldl_nil]
      at before unlisted ⊢
    by_cases named : id = row.id
    · subst named
      by_cases own : row.id = self
      · simpa [expireRow, own] using before
      · exact mem_expireRow prev expiryPolls self own positive _ unlisted
    · rw [(expireRow_of_ne prev expiryPolls self named _).1,
        (expireRow_of_ne prev expiryPolls self named _).2, before]

end Expiry

abbrev Ring := List Node

def Ring.add (ring : Ring) (node : Node) : Ring :=
  ring.filter (fun other => other.id ≠ node.id) ++ [node]

structure View where
  self : Node
  members : List Member
  epoch : Nat
deriving DecidableEq

structure Snapshot where
  view : View
  ring : Option Ring
deriving DecidableEq

structure Observer where
  tracker : Tracker
  snap : Snapshot
  epoch : Nat
  changed : Bool

def Observer.new : Observer := ⟨fun _ => none, ⟨⟨⟨"", ""⟩, [], 0⟩, none⟩, 0, false⟩

def membersEqual (left right : List Member) : Bool := left = right

def nodesEqual (left right : List Member) : Bool := left.map Member.node = right.map Member.node

def sortMembers (members : List Member) : List Member :=
  members.insertionSort fun left right => left.node.id ≤ right.node.id

/-- Swap in a new pair if the live membership differs from the published one; tells whether it
did. The ring is built anew only if an ID or an address has changed. -/
def publish (self : Node) (rows : List DocRow) (o : Observer) : Observer × Bool :=
  let members := sortMembers (rows.map DocRow.member)
  if membersEqual o.snap.view.members members then (o, false)
  else
    let ring :=
      if o.snap.ring.isNone ∨ !nodesEqual o.snap.view.members members then
        some ((members.map Member.node).foldl Ring.add [])
      else o.snap.ring
    ({ o with epoch := o.epoch + 1, snap := ⟨⟨self, members, o.epoch + 1⟩, ring⟩ }, true)

/-- The rows a pass keeps: those that have not expired, and the coordinator itself from its local
knowledge if its row is not among them. -/
def liveRows (cfg : Config) (roles : Role) (d : Document) (expired : List String) : List DocRow :=
  let live := d.dropIds expired
  if live.any fun row => row.id = cfg.self.id then live
  else live ++ [⟨cfg.self.id, cfg.self.addr, roles, cfg.declaredUnitCount, 0, 0⟩]

/-- One pass over a document, up to the garbage collection: the observer afterwards, and the IDs
it has found expired. -/
def observe (cfg : Config) (roles : Role) (d : Document) (o : Observer) : Observer × List String :=
  let judged := expireSilent o.tracker (d.map DocRow.lease) cfg.polls cfg.self.id
  let published := publish cfg.self (liveRows cfg roles d judged.2) { o with tracker := judged.1 }
  ({ published.1 with changed := published.1.changed || published.2 }, judged.2)

theorem publish_cases (self : Node) (rows : List DocRow) (o : Observer) :
    o.snap.view.members = sortMembers (rows.map DocRow.member) ∧ publish self rows o = (o, false) ∨
      o.snap.view.members ≠ sortMembers (rows.map DocRow.member) ∧
        ∃ ring, publish self rows o =
            ({ o with
                epoch := o.epoch + 1
                snap := ⟨⟨self, sortMembers (rows.map DocRow.member), o.epoch + 1⟩, ring⟩ },
              true) ∧
          (ring = some (((sortMembers (rows.map DocRow.member)).map Member.node).foldl
              Ring.add []) ∨
            ring = o.snap.ring ∧ ring ≠ none ∧ o.snap.view.members.map Member.node =
              (sortMembers (rows.map DocRow.member)).map Member.node) := by
  unfold publish
  dsimp only
  split
  case isTrue same => exact .inl ⟨of_decide_eq_true same, rfl⟩
  case isFalse apart =>
    refine .inr ⟨fun same => apart (decide_eq_true same), _, rfl, ?_⟩
    split
    case isTrue => exact .inl rfl
    case isFalse kept =>
      simp only [not_or, nodesEqual, Bool.not_eq_true', decide_eq_false_iff_not, not_not,
        Option.isNone_iff_eq_none] at kept
      exact .inr ⟨rfl, kept.1, kept.2⟩

section Pass

variable (cfg : Config) (roles : Role) {d : Document} {o : Observer} {seen : List Document}
  {id : String}

def Unchanged (count : Nat) (seen : List Document) (row : DocRow) : Prop :=
  count ≤ seen.length ∧ ∀ d ∈ seen.take count, ∃ held ∈ d, held.lease = row.lease

instance (count : Nat) (seen : List Document) (row : DocRow) :
    Decidable (Unchanged count seen row) := inferInstanceAs (Decidable (_ ∧ _))

def Document.pairOf (id : String) (d : Document) : Option (Nat × Nat) :=
  (d.find id).map fun row => row.lease.pair

def Observer.Tracks (cfg : Config) (seen : List Document) (o : Observer) : Prop :=
  ∀ id, (o.tracker id).map LeaseObservation.record =
    if id = cfg.self.id then none else Streak.record (seen.map (Document.pairOf id))

def Observer.Published (o : Observer) : Prop :=
  o.snap.view.epoch = o.epoch ∧
    (o.snap.ring = some (o.snap.view.members.map Member.node) ∨
      o.snap.ring = none ∧ o.snap.view.members = [])

theorem tracks_new : Observer.new.Tracks cfg [] := by
  intro id
  simp [Observer.new, Streak.record]

theorem published_new : Observer.new.Published := ⟨rfl, .inr ⟨rfl, rfl⟩⟩

theorem tracker_publish (self : Node) (rows : List DocRow) (o : Observer) :
    (publish self rows o).1.tracker = o.tracker := by
  rcases publish_cases self rows o with ⟨-, kept⟩ | ⟨-, ring, swapped, -⟩
  · rw [kept]
  · rw [swapped]

theorem map_id_lease (d : Document) : (d.map DocRow.lease).map LeaseRow.id = d.map DocRow.id := by
  simp [DocRow.lease]

theorem tracker_observe (unique : d.Unique) (o : Observer) (id : String) :
    ((observe cfg roles d o).1.tracker id).map LeaseObservation.record =
      if id = cfg.self.id then none
      else Streak.next ((o.tracker id).map LeaseObservation.record) (d.pairOf id) := by
  rw [observe]
  simp only [tracker_publish]
  rw [expireSilent_record _ _ _ (by rwa [map_id_lease]), List.find?_map, Option.map_map]
  rfl

theorem Observer.Tracks.pass (tracks : o.Tracks cfg seen) (unique : d.Unique) :
    (observe cfg roles d o).1.Tracks cfg (d :: seen) := by
  intro id
  rw [tracker_observe cfg roles unique, tracks id]
  by_cases own : id = cfg.self.id
  · simp [own]
  · simp [own, Streak.record]

variable {row : DocRow}

theorem Document.Unique.pairOf_eq_some_iff (unique : d.Unique) :
    d.pairOf row.id = some row.lease.pair ↔ ∃ held ∈ d, held.lease = row.lease := by
  constructor
  · intro told
    obtain ⟨held, found, same⟩ := Option.map_eq_some_iff.mp told
    obtain ⟨mem, named⟩ := Document.of_find found
    refine ⟨held, mem, ?_⟩
    simp only [DocRow.lease, LeaseRow.pair, Prod.mk.injEq] at same ⊢
    simp [named, same]
  · rintro ⟨held, mem, same⟩
    have named : held.id = row.id := congrArg LeaseRow.id same
    rw [Document.pairOf, ← named, unique.find_of_mem mem, Option.map_some, same]

theorem unchanged_iff (mem : row ∈ d) (unique : d.Unique)
    (uniques : ∀ earlier ∈ seen, Document.Unique earlier) (limit : Nat) :
    (∃ last repeats, Streak.record ((d :: seen).map (Document.pairOf row.id)) =
        some (last, repeats) ∧ limit ≤ repeats) ↔ Unchanged (limit + 1) (d :: seen) row := by
  have newest : d.pairOf row.id = some row.lease.pair :=
    unique.pairOf_eq_some_iff.mpr ⟨row, mem, rfl⟩
  rw [map_cons, newest, Streak.record_cons]
  simp only [Option.some.injEq, Prod.mk.injEq]
  calc (∃ last repeats, (row.lease.pair = last ∧ _ = repeats) ∧ limit ≤ repeats)
      ↔ limit ≤ ((seen.map (Document.pairOf row.id)).takeWhile
          fun found => found = some row.lease.pair).length := by simp
    _ ↔ Unchanged (limit + 1) (d :: seen) row := by
        rw [Streak.le_length_takeWhile_iff, Unchanged, length_map, ← map_take]
        simp only [mem_map, decide_eq_true_eq, forall_exists_index, and_imp,
          forall_apply_eq_imp_iff₂, length_cons, Nat.add_le_add_iff_right,
          take_succ_cons, mem_cons, forall_eq_or_imp]
        refine and_congr_right fun _ => ⟨fun all => ⟨⟨row, mem, rfl⟩, ?_⟩, fun all => ?_⟩
        · intro earlier taken
          exact (uniques earlier (mem_of_mem_take taken)).pairOf_eq_some_iff.mp
            (all earlier taken)
        · intro earlier taken
          exact (uniques earlier (mem_of_mem_take taken)).pairOf_eq_some_iff.mpr
            (all.2 earlier taken)

theorem Observer.Tracks.mem_expired (tracks : o.Tracks cfg seen) (unique : d.Unique)
    (uniques : ∀ earlier ∈ seen, Document.Unique earlier) (id : String) :
    id ∈ (observe cfg roles d o).2 ↔
      id ≠ cfg.self.id ∧ ∃ row ∈ d, row.id = id ∧ Unchanged (cfg.polls + 1) (d :: seen) row := by
  have leases : ((d.map DocRow.lease).map LeaseRow.id).Nodup := by rwa [map_id_lease]
  calc id ∈ (observe cfg roles d o).2
      ↔ ∃ obs, (observe cfg roles d o).1.tracker id = some obs ∧ cfg.polls ≤ obs.stale := by
        rw [observe]
        simp only [tracker_publish]
        exact mem_expireSilent o.tracker cfg.polls cfg.self.id leases cfg.polls_pos id
    _ ↔ ∃ last repeats, ((observe cfg roles d o).1.tracker id).map LeaseObservation.record =
          some (last, repeats) ∧ cfg.polls ≤ repeats := by
        simp [LeaseObservation.record]
    _ ↔ id ≠ cfg.self.id ∧
          ∃ row ∈ d, row.id = id ∧ Unchanged (cfg.polls + 1) (d :: seen) row := by
        rw [tracks.pass cfg roles unique id]
        by_cases own : id = cfg.self.id
        · simp [own]
        · simp only [own, if_false, ne_eq, not_false_eq_true, true_and]
          cases found : d.find id with
          | none =>
            have absent := Document.find_eq_none_iff.mp found
            simp only [map_cons, Document.pairOf, found, Option.map_none, Streak.record,
              Streak.next, reduceCtorEq, false_and, exists_false, false_iff, not_exists]
            rintro row ⟨mem, named, -⟩
            exact absent row mem named
          | some row =>
            obtain ⟨mem, rfl⟩ := Document.of_find found
            rw [unchanged_iff mem unique uniques]
            constructor
            · exact fun unchanged => ⟨row, mem, rfl, unchanged⟩
            · rintro ⟨other, present, named, unchanged⟩
              obtain rfl : other = row := by
                rw [← Option.some.injEq, ← found, ← named, unique.find_of_mem present]
              exact unchanged

theorem liveRows_unique (unique : d.Unique) (expired : List String) :
    Document.Unique (liveRows cfg roles d expired) ∧
      cfg.self.id ∈ (liveRows cfg roles d expired).map DocRow.id := by
  unfold liveRows
  dsimp only
  split
  case isTrue seen =>
    obtain ⟨row, mem, named⟩ := any_eq_true.mp seen
    exact ⟨unique.dropIds expired, mem_map.mpr ⟨row, mem, of_decide_eq_true named⟩⟩
  case isFalse unseen =>
    have absent : ∀ row ∈ d.dropIds expired, row.id ≠ cfg.self.id := by simpa using unseen
    refine ⟨?_, by simp⟩
    simp only [Document.Unique, map_append, map_cons, map_nil]
    refine nodup_append.mpr ⟨unique.dropIds expired, by simp, ?_⟩
    intro id listed other single
    obtain ⟨row, mem, rfl⟩ := mem_map.mp listed
    rw [mem_singleton.mp single]
    exact absent row mem

theorem mem_liveRows (other : row.id ≠ cfg.self.id) (expired : List String) :
    row ∈ liveRows cfg roles d expired ↔ row ∈ d ∧ row.id ∉ expired := by
  unfold liveRows
  dsimp only
  split
  · simp [Document.dropIds]
  · simp only [mem_append, Document.dropIds, mem_filter, decide_eq_true_eq,
      mem_singleton, or_iff_left_iff_imp]
    rintro rfl
    exact absurd rfl other

theorem map_id_member (rows : List DocRow) :
    (rows.map DocRow.member).map (fun member => member.node.id) = rows.map DocRow.id := by
  simp [DocRow.member]

theorem members_observe (o : Observer) :
    (observe cfg roles d o).1.snap.view.members =
      sortMembers ((liveRows cfg roles d (observe cfg roles d o).2).map DocRow.member) := by
  unfold observe
  dsimp only
  rcases publish_cases cfg.self _ { o with tracker := _ } with ⟨same, kept⟩ | ⟨-, ring, swapped, -⟩
  · rw [kept]
    exact same
  · rw [swapped]

theorem members_perm (o : Observer) :
    (observe cfg roles d o).1.snap.view.members.Perm
      ((liveRows cfg roles d (observe cfg roles d o).2).map DocRow.member) := by
  rw [members_observe]
  exact perm_insertionSort _ _

theorem viewIds_nodup (unique : d.Unique) (o : Observer) :
    ((observe cfg roles d o).1.snap.view.members.map fun member => member.node.id).Nodup ∧
      cfg.self.id ∈ (observe cfg roles d o).1.snap.view.members.map fun member =>
        member.node.id := by
  have same := (members_perm cfg roles (d := d) o).map fun member => member.node.id
  rw [map_id_member] at same
  obtain ⟨nodup, own⟩ := liveRows_unique cfg roles unique (observe cfg roles d o).2
  exact ⟨same.nodup_iff.mpr nodup, same.mem_iff.mpr own⟩

theorem mem_viewIds_iff (member : row ∈ d) (other : row.id ≠ cfg.self.id) (o : Observer) :
    (row.id ∈ (observe cfg roles d o).1.snap.view.members.map fun member => member.node.id) ↔
      row.id ∉ (observe cfg roles d o).2 := by
  have same := (members_perm cfg roles (d := d) o).map fun member => member.node.id
  rw [map_id_member] at same
  rw [same.mem_iff, mem_map]
  constructor
  · rintro ⟨held, live, named⟩
    obtain ⟨present, kept⟩ := (mem_liveRows cfg roles (named ▸ other) _).mp live
    rwa [named] at kept
  · intro kept
    exact ⟨row, (mem_liveRows cfg roles other _).mpr ⟨member, kept⟩, rfl⟩

theorem foldl_add (nodes : List Node) (ring : Ring)
    (nodup : ((ring ++ nodes).map Node.id).Nodup) : nodes.foldl Ring.add ring = ring ++ nodes := by
  induction nodes generalizing ring with
  | nil => simp
  | cons node rest ih =>
    have fresh : ring.filter (fun other => other.id ≠ node.id) = ring := by
      rw [filter_eq_self]
      intro other mem
      simp only [map_append, nodup_append, map_cons] at nodup
      simpa using nodup.2.2 other.id (mem_map_of_mem mem) node.id (by simp)
    rw [foldl_cons, Ring.add, fresh, ih]
    · simp
    · simpa using nodup

theorem snap_observe (o : Observer) :
    (observe cfg roles d o).1.snap = o.snap ∧ (observe cfg roles d o).1.epoch = o.epoch ∨
      (observe cfg roles d o).1.snap.view.members ≠ o.snap.view.members ∧
        (observe cfg roles d o).1.epoch = o.epoch + 1 ∧
        (observe cfg roles d o).1.snap.view.epoch = o.epoch + 1 := by
  unfold observe
  dsimp only
  rcases publish_cases cfg.self _ { o with tracker := _ } with
    ⟨-, kept⟩ | ⟨apart, ring, swapped, -⟩
  · rw [kept]
    exact .inl ⟨rfl, rfl⟩
  · rw [swapped]
    exact .inr ⟨Ne.symm apart, rfl, rfl⟩

theorem ring_observe (published : o.Published) (unique : d.Unique) :
    (observe cfg roles d o).1.snap.ring =
      some ((observe cfg roles d o).1.snap.view.members.map Member.node) := by
  obtain ⟨nodup, own⟩ := viewIds_nodup cfg roles unique o
  have rebuilt : ((observe cfg roles d o).1.snap.view.members.map Member.node).foldl Ring.add [] =
      (observe cfg roles d o).1.snap.view.members.map Member.node := by
    rw [foldl_add _ _ (by simpa [Function.comp_def] using nodup), nil_append]
  unfold observe at rebuilt own ⊢
  dsimp only at rebuilt own ⊢
  rcases publish_cases cfg.self _ { o with tracker := _ } with
    ⟨same, kept⟩ | ⟨-, ring, swapped, built | ⟨reused, present, nodes⟩⟩
  · rw [kept] at own ⊢
    -- the members are not empty, so this is not the pair the observer was made with
    rcases published.2 with built | ⟨-, empty⟩
    · exact built
    · simp [empty] at own
  · rw [swapped] at rebuilt ⊢
    exact built.trans (congrArg some rebuilt)
  · rw [swapped]
    rcases published.2 with built | ⟨absent, -⟩
    · exact reused.trans (built.trans (congrArg some nodes))
    · exact absurd (reused.trans absent) present

theorem Observer.Published.pass (published : o.Published) (unique : d.Unique) :
    (observe cfg roles d o).1.Published := by
  refine ⟨?_, .inl (ring_observe cfg roles published unique)⟩
  rcases snap_observe cfg roles (d := d) o with ⟨kept, same⟩ | ⟨-, counted, advanced⟩
  · rw [kept, same]
    exact published.1
  · rw [advanced, counted]

end Pass

/-- The observer after its passes, the newest first: at each, the roles it had asked for and the
document it had read. -/
def observed (cfg : Config) : List (Role × Document) → Observer
  | [] => .new
  | pass :: earlier => (observe cfg pass.1 pass.2 (observed cfg earlier)).1

theorem observed_invariant (cfg : Config) {passes : List (Role × Document)}
    (unique : ∀ pass ∈ passes, pass.2.Unique) :
    (observed cfg passes).Tracks cfg (passes.map Prod.snd) ∧ (observed cfg passes).Published := by
  induction passes with
  | nil => exact ⟨tracks_new cfg, published_new⟩
  | cons pass earlier ih =>
    obtain ⟨newest, uniques⟩ := forall_mem_cons.mp unique
    obtain ⟨tracks, published⟩ := ih uniques
    exact ⟨tracks.pass cfg pass.1 newest, published.pass cfg pass.1 newest⟩

/-- The view after a pass: a row of the document, but the observer's own, is missing exactly if
it has been unchanged in the last `polls + 1` observed documents, and is shown as it is
otherwise; the observer itself is shown once; the ring is built from the members; and the epoch
advances exactly with the members. -/
theorem observed_view (cfg : Config) (passes : List (Role × Document)) (roles : Role)
    (d : Document) (uniques : ∀ pass ∈ passes, pass.2.Unique) (unique : d.Unique) :
    let before := (observed cfg passes).snap
    let after := (observed cfg ((roles, d) :: passes)).snap
    let ids := after.view.members.map fun member => member.node.id
    (∀ row ∈ d, row.id ≠ cfg.self.id →
        (row.id ∉ ids ↔ Unchanged (cfg.polls + 1) (d :: passes.map Prod.snd) row) ∧
        (row.id ∈ ids → row.member ∈ after.view.members)) ∧
      ids.count cfg.self.id = 1 ∧
      after.ring = some (after.view.members.map Member.node) ∧
      (after.view.members = before.view.members → after = before) ∧
      (after.view.members ≠ before.view.members → before.view.epoch < after.view.epoch) := by
  obtain ⟨tracks, published⟩ := observed_invariant cfg uniques
  have earlier : ∀ seen ∈ passes.map Prod.snd, Document.Unique seen := by
    intro seen listed
    obtain ⟨pass, member, rfl⟩ := mem_map.mp listed
    exact uniques pass member
  intro before after ids
  refine ⟨fun row member other => ?_, ?_, ring_observe cfg roles published unique, ?_⟩
  · have shown : row.id ∈ ids ↔ row.id ∉ (observe cfg roles d (observed cfg passes)).2 :=
      mem_viewIds_iff cfg roles member other (observed cfg passes)
    refine ⟨?_, fun listed => ?_⟩
    · rw [shown, not_not, tracks.mem_expired cfg roles unique earlier]
      constructor
      · rintro ⟨-, held, present, named, unchanged⟩
        obtain rfl : held = row := by
          rw [← Option.some.injEq, ← unique.find_of_mem present, ← unique.find_of_mem member, named]
        exact unchanged
      · exact fun unchanged => ⟨other, row, member, rfl, unchanged⟩
    · refine (members_perm cfg roles (observed cfg passes)).mem_iff.mpr ?_
      exact mem_map_of_mem ((mem_liveRows cfg roles other _).mpr ⟨member, shown.mp listed⟩)
  · obtain ⟨nodup, own⟩ := viewIds_nodup cfg roles unique (observed cfg passes)
    exact count_eq_one_of_mem nodup own
  · rcases snap_observe cfg roles (d := d) (observed cfg passes) with
      ⟨kept, -⟩ | ⟨apart, -, advanced⟩
    · exact ⟨fun _ => kept, fun apart => absurd (congrArg (·.view.members) kept) apart⟩
    · refine ⟨fun same => absurd same apart, fun _ => ?_⟩
      have counted := published.1
      show (observed cfg passes).snap.view.epoch < _
      rw [counted]
      exact advanced ▸ Nat.lt_succ_self _

theorem observed_view_silent :
    let cfg : Config := ⟨⟨"a", "a:1"⟩, 0, 8, 2⟩
    let silent : DocRow := ⟨"b", "b:1", 0, 8, 3, 1⟩
    let d : Document := [⟨"a", "a:1", 0, 8, 1, 0⟩, silent]
    let view := fun passes => (observed cfg passes).snap.view.members.map fun m => m.node.id
    view [(0, d), (0, d)] = ["a", "b"] ∧ view [(0, d), (0, d), (0, d)] = ["a"] ∧
      (silent.id ∉ view [(0, d), (0, d), (0, d)] ↔ Unchanged (cfg.polls + 1) [d, d, d] silent) := by
  refine ⟨by decide, by decide, ?_⟩
  exact ((observed_view ⟨⟨"a", "a:1"⟩, 0, 8, 2⟩
    [(0, [⟨"a", "a:1", 0, 8, 1, 0⟩, ⟨"b", "b:1", 0, 8, 3, 1⟩]),
      (0, [⟨"a", "a:1", 0, 8, 1, 0⟩, ⟨"b", "b:1", 0, 8, 3, 1⟩])] 0
    [⟨"a", "a:1", 0, 8, 1, 0⟩, ⟨"b", "b:1", 0, 8, 3, 1⟩] (by decide) (by decide)).1
      ⟨"b", "b:1", 0, 8, 3, 1⟩ (by decide) (by decide)).1

end Shale.Membership
