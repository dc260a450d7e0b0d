import Shale.Handoff.Accesses

/-!
# Serving mounts and their epochs

A node's mount, the epoch it has recorded and every marker are accounted for by serving mounts
that have been completed. The exception is a stuck flip that finds no recorded epoch any more and
publishes the durable epoch instead, which may be that of an open still under way.
-/

namespace Shale.Handoff

open List

namespace Cell

structure Accounted (c : Cell) : Prop where
  mounted : ∀ {node epoch}, (c.slots node).mount = some epoch →
    (node, epoch) ∈ c.served ∧ ∀ {earlier}, (node, earlier) ∈ c.served → earlier ≤ epoch
  recorded : ∀ {node epoch}, (c.slots node).openEpoch = some epoch → (node, epoch) ∈ c.served
  durable : ∀ {node epoch}, (node, epoch) ∈ c.served → epoch ≤ c.durable
  marked : ∀ {node epoch}, (node, epoch) ∈ c.marks → (node, epoch) ∈ c.served
  marker : ∀ {epoch}, c.marker = some epoch → ∃ node, (node, epoch) ∈ c.marks

theorem Accounted.empty : Accounted .empty := ⟨nofun, nofun, nofun, nofun, nofun⟩

end Cell

namespace Errand

def Vouches (node : Nat) (c : Cell) : Errand → Prop
  | .install epoch => epoch ≤ c.durable ∧ ∀ {earlier}, (node, earlier) ∈ c.served → earlier < epoch
  | .publish epoch | .announce epoch => (node, epoch) ∈ c.served
  | .flipDurable => False
  | _ => True

end Errand

def flipsRecorded : Errand → Event → Place → Bool
  | .flipOwn, _, p => p.slot.openEpoch.isSome
  | _, _, _ => true

variable {p p' : Place} {errand : Errand} {event : Event} {next : Option Errand} {c : Cell}
  {node other : Nat} {epoch : Nat}

namespace Cell

/-- An access that neither completes a serving mount nor writes a marker: a mount and a recorded
epoch can only go, and the durable epoch only grows. -/
structure Quiet (node : Nat) (c c' : Cell) : Prop where
  mount : (c'.slots node).mount = (c.slots node).mount ∨ (c'.slots node).mount = none
  openEpoch : (c'.slots node).openEpoch = (c.slots node).openEpoch ∨
    (c'.slots node).openEpoch = none
  durable : c.durable ≤ c'.durable
  marker : c'.marker = c.marker
  served : c'.served = c.served
  marks : c'.marks = c.marks

theorem quiet_after (mount : p.slot.mount = (c.slots node).mount ∨ p.slot.mount = none)
    (openEpoch : p.slot.openEpoch = (c.slots node).openEpoch ∨ p.slot.openEpoch = none)
    (durable : c.durable ≤ p.durable) (marker : p.marker = c.marker)
    (served : (c.after node errand event p next).served = c.served)
    (marks : (c.after node errand event p next).marks = c.marks) :
    c.Quiet node (c.after node errand event p next) :=
  ⟨by simpa using mount, by simpa using openEpoch, by simpa using durable, by simpa using marker,
    served, marks⟩

section

variable (did : errand.Did (c.place node) event p next)
include did

theorem after_cases :
    (∃ epoch, errand = .install epoch ∧ next = some (.announce epoch) ∧
      c.after node errand event p next =
        { c.put node p with served := (node, epoch) :: c.served } ∧
      p = { c.place node with slot :=
        { c.slots node with openEpoch := some epoch, mount := some epoch, phase := none } }) ∨
    (∃ epoch, (errand = .publish epoch ∨ errand = .announce epoch) ∧
      c.after node errand event p next =
        { c.put node p with marks := (node, epoch) :: c.marks } ∧
      p = (c.place node).writeServingMarker epoch) ∨
    c.Quiet node (c.after node errand event p next) := by
  cases did with
  | installed => exact .inl ⟨_, rfl, rfl, rfl, rfl⟩
  | published => exact .inr (.inl ⟨_, .inl rfl, rfl, rfl⟩)
  | announced => exact .inr (.inl ⟨_, .inr rfl, rfl, rfl⟩)
  | read silent learned =>
    rw [after_read silent learned]
    exact .inr (.inr ⟨.inl rfl, .inl rfl, le_rfl, rfl, rfl, rfl⟩)
  | released | evicted => exact .inr (.inr (quiet_after (.inr rfl) (.inr rfl) le_rfl rfl rfl rfl))
  | unmounted => exact .inr (.inr (quiet_after (.inr rfl) (.inl rfl) le_rfl rfl rfl rfl))
  | forgot => exact .inr (.inr (quiet_after (.inl rfl) (.inr rfl) le_rfl rfl rfl rfl))
  | shut at_close =>
    rcases at_close with ⟨rfl, rfl⟩ | ⟨rfl, rfl⟩ | ⟨rfl, rfl⟩ <;>
      exact .inr (.inr (quiet_after (.inl rfl) (.inl rfl) le_rfl rfl rfl rfl))
  | opened at_open _ above =>
    rcases at_open with rfl | rfl <;>
      exact .inr (.inr (quiet_after (.inl rfl) (.inl rfl) above.le rfl rfl rfl))
  | fenced at_open =>
    rcases at_open with ⟨rfl, rfl⟩ | ⟨rfl, rfl⟩ <;>
      exact .inr (.inr (quiet_after (.inl rfl) (.inl rfl) (Nat.le_succ _) rfl rfl rfl))
  -- the phase and the in-flight entry
  | _ => exact .inr (.inr (quiet_after (.inl rfl) (.inl rfl) le_rfl rfl rfl rfl))

theorem served_subset_after {entry : Nat × Nat} (served : entry ∈ c.served) :
    entry ∈ (c.after node errand event p next).served := by
  rcases after_cases did with ⟨epoch, -, -, after, -⟩ | ⟨epoch, -, after, -⟩ | quiet
  · rw [after]
    exact mem_cons_of_mem _ served
  · rw [after]
    exact served
  · rwa [quiet.served]

theorem durable_le_after : c.durable ≤ (c.after node errand event p next).durable := by
  rcases after_cases did with ⟨epoch, -, -, after, rfl⟩ | ⟨epoch, -, after, rfl⟩ | quiet
  · rw [after]
    exact le_rfl
  · rw [after]
    exact le_rfl
  · exact quiet.durable

end

theorem Accounted.quiet {c' : Cell} (fine : c.Accounted) (quiet : c.Quiet node c')
    (apart : ∀ other, other ≠ node → c'.slots other = c.slots other) : c'.Accounted where
  mounted := by
    intro other epoch mounted
    rw [quiet.served]
    by_cases same : other = node
    · subst same
      rcases quiet.mount with kept | gone
      · exact fine.mounted (kept ▸ mounted)
      · simp [gone] at mounted
    · exact fine.mounted (apart other same ▸ mounted)
  recorded := by
    intro other epoch recorded
    rw [quiet.served]
    by_cases same : other = node
    · subst same
      rcases quiet.openEpoch with kept | gone
      · exact fine.recorded (kept ▸ recorded)
      · simp [gone] at recorded
    · exact fine.recorded (apart other same ▸ recorded)
  durable served := (fine.durable (quiet.served ▸ served)).trans quiet.durable
  marked marked := quiet.served ▸ fine.marked (quiet.marks ▸ marked)
  marker marked := quiet.marks ▸ fine.marker (quiet.marker ▸ marked)

theorem Accounted.installed (fine : c.Accounted) (vouched : (Errand.install epoch).Vouches node c)
    (here : p = { c.place node with slot :=
      { c.slots node with openEpoch := some epoch, mount := some epoch, phase := none } }) :
    Accounted { c.put node p with served := (node, epoch) :: c.served } where
  mounted := by
    intro other mount mounted
    by_cases same : other = node
    · subst same here
      obtain rfl : epoch = mount := by simpa [put] using mounted
      refine ⟨mem_cons_self, fun served => ?_⟩
      rcases mem_cons.mp served with new | old
      · exact (Prod.mk.inj new).2.le
      · exact (vouched.2 old).le
    · have before := fine.mounted (by simpa [put, same] using mounted)
      refine ⟨mem_cons_of_mem _ before.1, fun served => ?_⟩
      rcases mem_cons.mp served with new | old
      · exact absurd (Prod.mk.inj new).1 same
      · exact before.2 old
  recorded := by
    intro other mount recorded
    by_cases same : other = node
    · subst same here
      obtain rfl : epoch = mount := by simpa [put] using recorded
      exact mem_cons_self
    · exact mem_cons_of_mem _ (fine.recorded (by simpa [put, same] using recorded))
  durable := by
    intro other earlier served
    subst here
    rcases mem_cons.mp served with new | old
    · cases new
      exact vouched.1
    · exact fine.durable old
  marked marked := mem_cons_of_mem _ (fine.marked marked)
  marker marked := by
    subst here
    exact fine.marker marked

theorem Accounted.written (fine : c.Accounted) (served : (node, epoch) ∈ c.served)
    (here : p = (c.place node).writeServingMarker epoch) :
    Accounted { c.put node p with marks := (node, epoch) :: c.marks } := by
  subst here
  have slots : ∀ other,
      (c.put node ((c.place node).writeServingMarker epoch)).slots other = c.slots other := by
    intro other
    simp [put, place, Place.writeServingMarker]
  refine ⟨fun mounted => fine.mounted (slots _ ▸ mounted),
    fun recorded => fine.recorded (slots _ ▸ recorded), fine.durable, ?_, ?_⟩
  · intro other earlier marked
    rcases mem_cons.mp marked with new | old
    · cases new
      exact served
    · exact fine.marked old
  · intro above marked
    -- the marker is the larger one of the old and the new epoch
    obtain rfl : max epoch (c.marker.getD 0) = above := Option.some.inj marked
    rcases le_total (c.marker.getD 0) epoch with low | high
    · rw [max_eq_left low]
      exact ⟨node, mem_cons_self⟩
    · cases before : c.marker with
      | none =>
        rw [Option.getD_none, max_eq_left (Nat.zero_le _)]
        exact ⟨node, mem_cons_self⟩
      | some old =>
        rw [before, Option.getD_some] at high
        rw [Option.getD_some, max_eq_right high]
        obtain ⟨other, marked⟩ := fine.marker before
        exact ⟨other, mem_cons_of_mem _ marked⟩

end Cell

namespace Errand

section

variable (fine : c.Accounted) (known : errand.Vouches node c)
  (flips : errand = .flipOwn → (c.slots node).openEpoch ≠ none)
include fine known flips

theorem Vouches.of_learned {following : Errand}
    (learned : Learned (c.place node) errand event following) : following.Vouches node c := by
  cases following with
  | publish epoch =>
    rcases learned with rfl | recorded
    · exact known.elim
    · exact fine.recorded recorded
  | flipDurable => exact (flips learned.1 learned.2).elim
  | install | announce => exact learned.elim
  | _ => trivial

theorem Vouches.following (did : errand.Did (c.place node) event p next) {following : Errand}
    (goes : next = some following) : following.Vouches node (c.after node errand event p next) := by
  cases did with
  | read silent learned =>
    rw [Cell.after_read silent learned]
    exact known.of_learned fine flips (learned following goes)
  | @opened _ epoch at_open free above =>
    cases goes
    have served : (c.after node errand .go { c.place node with
        handle := some epoch, durable := epoch } (some (.install epoch))).served = c.served := by
      rcases at_open with rfl | rfl <;> rfl
    refine ⟨by simp, fun earlier => ?_⟩
    rw [served] at earlier
    exact (fine.durable earlier).trans_lt above
  | installed =>
    cases goes
    exact mem_cons_self
  | shut at_close =>
    rcases at_close with ⟨rfl, rfl⟩ | ⟨rfl, rfl⟩ | ⟨rfl, rfl⟩ <;> cases goes <;> trivial
  | fenced at_open =>
    rcases at_open with ⟨rfl, rfl⟩ | ⟨rfl, rfl⟩ <;> cases goes <;> trivial
  | _ => cases goes <;> trivial

end

theorem Vouches.across {worker watcher : Worker} {ru : ReplicaUnit} {seen : Errand}
    (did : errand.Did (c.place node) event p next) (mine : errand.IsOf worker ru)
    (theirs : seen.IsOf watcher ru) (apart : (other, watcher) ≠ (node, worker))
    (known : seen.Vouches other c) : seen.Vouches other (c.after node errand event p next) := by
  cases seen with
  | publish | announce => exact Cell.served_subset_after did known
  | flipDurable => exact known
  | install epoch =>
    refine ⟨known.1.trans (Cell.durable_le_after did), fun {earlier} served => known.2 ?_⟩
    rcases Cell.after_cases did with ⟨new, rfl, -, after, -⟩ | ⟨new, -, after, -⟩ | quiet
    · rw [after] at served
      rcases mem_cons.mp served with here | old
      · obtain ⟨rfl, -⟩ := Prod.mk.inj here
        exact absurd (congrArg (Prod.mk other) (theirs.trans mine.symm)) apart
      · exact old
    · rw [after] at served
      exact served
    · rwa [quiet.served] at served
  | _ => trivial

end Errand

theorem accounted_of_reaches {closed : Nat → Bool} {s : State}
    {condition : Errand → Event → Place → Bool}
    (reached : (machine closed).Reaches (Finds condition) initial s)
    (flips : ∀ {errand event p}, condition errand event p = true →
      flipsRecorded errand event p = true) (ru : ReplicaUnit) : (s.object ru).Accounted := by
  refine (errands_invariant Cell.Accounted (fun node errand c => errand.Vouches node c) reached
    .empty ?_ ?_).1 ru
  · intro node errand c entry
    cases errand <;> trivial
  intro s node worker event ru errand rest p next _ permitted running mine fine known did
  refine ⟨?_, fun following goes => known.following fine ?_ did goes,
    fun apart theirs seen => Errand.Vouches.across did mine theirs apart seen⟩
  · rcases Cell.after_cases did with ⟨epoch, rfl, -, after, here⟩ |
      ⟨epoch, rfl | rfl, after, here⟩ | quiet
    · rw [after]
      exact fine.installed known here
    · rw [after]
      exact fine.written known here
    · rw [after]
      exact fine.written known here
    · exact fine.quiet quiet fun other apart => Cell.slots_after_of_ne apart
  · rintro rfl
    exact Option.isSome_iff_ne_none.mp (flips (permitted.running running))

end Shale.Handoff
