import Shale.Transaction.OpenCommit

/-!
# Validation and serial order

What validation is worth. Against other commits it is all that is needed: the commits of a
position refine a store that executes one call at a time, provided that its checks pass, and
a call that is refused changes nothing. Against plain writes at one replica, which take no
lock, a check only holds until the next write of its key.
-/

namespace Shale.Position

open Machine

variable {Value : Type} {layout : Layout Value} {node : Nat} {s s' : State Value}
  {action : Action Value} {call : CasCall} {stamp : Stamp}

def Action.ofCommits : Action Value → Bool
  | .call _ | .lockCas _ | .stepCas _ _ | .observe _ => true
  | _ => false

def commitsOnly (_ : State Value) (action : Action Value) : Prop := action.ofCommits = true

instance : DecidableRel (@commitsOnly Value) := fun _ _ => inferInstanceAs (Decidable (_ = true))

theorem step_effect (stepped : step layout node action s = some s') :
    (∃ tx stamp, s.committing = some tx ∧ tx.phase = .writing stamp [] ∧
        s' = { s.finish tx (.committed stamp) with db := tx.overlay.commit s.db }) ∨
      s'.committed = s.committed ∧ (action.ofCommits = true → s'.db = s.db) := by
  cases action with
  | call call | observe timestamp =>
    cases stepped
    exact .inr ⟨rfl, fun _ => rfl⟩
  | lockCas i =>
    obtain ⟨call, rfl⟩ := of_lockCas stepped
    exact .inr ⟨rfl, fun _ => rfl⟩
  | stepCas ok wall =>
    rcases casStep_effect stepped with commits | ⟨sameDb, sameLog⟩
    · exact .inl commits
    · exact .inr ⟨sameLog, fun _ => sameDb⟩
  | lockApply writes =>
    obtain rfl := of_lockApply stepped
    exact .inr ⟨rfl, fun _ => rfl⟩
  | stepApply ok =>
    exact .inr ⟨by simp only [State.committed, applyStep_finished stepped],
      fun commits => by cases commits⟩
  | plain key effect =>
    obtain rfl := of_plain stepped
    exact .inr ⟨rfl, fun commits => by cases commits⟩

theorem frame_of_commits (commits : action.ofCommits = true)
    (stepped : step layout node action s = some s') :
    s'.foreign = s.foreign ∧ s'.applying = s.applying := by
  cases action with
  | call call | observe timestamp =>
    cases stepped
    exact ⟨rfl, rfl⟩
  | lockCas i =>
    obtain ⟨call, rfl⟩ := of_lockCas stepped
    exact ⟨rfl, rfl⟩
  | stepCas ok wall =>
    obtain ⟨tx, _, ⟨rfl, rfl⟩ | ⟨rfl, rfl⟩⟩ := of_casStep stepped
    · exact ⟨casAdvance_foreign, casAdvance_applying⟩
    · exact ⟨rfl, rfl⟩
  | lockApply _ | stepApply _ | plain _ _ => cases commits

theorem commit_of_reported (stepped : step layout node action s = some s')
    (reported : s'.finished = s.finished ++ [(call, .committed stamp)]) :
    ∃ tx, s.committing = some tx ∧ tx.call = call ∧ tx.phase = .writing stamp [] ∧
      s'.db = tx.overlay.commit s.db := by
  rcases step_effect stepped with ⟨tx, issued, holder, last, rfl⟩ | ⟨silent, _⟩
  · simp only [State.finish, List.append_cancel_left_eq, List.cons.injEq, Prod.mk.injEq,
      Outcome.committed.injEq, and_true] at reported
    obtain ⟨rfl, rfl⟩ := reported
    exact ⟨tx, holder, rfl, last, rfl⟩
  · simp [State.committed, reported] at silent

theorem CasTx.Sound.at_commit {tx : CasTx Value} (sound : tx.Sound layout s.db s.foreign)
    (last : tx.phase = .writing stamp []) :
    tx.validated.map Prod.fst = tx.call.reads ∧
      (tx.overlay.commit s.db).get = layout.execute stamp tx.call.writes s.db.get := by
  have checks := sound.checks
  obtain ⟨done, split, overlay⟩ := sound.buffered
  simp only [unchecked, unwritten, CasTx.stamp, last, List.append_nil] at checks split overlay
  refine ⟨checks, ?_⟩
  funext key
  rw [MemoryTx.get_commit, overlay, layout.get_buffer, split]

def Layout.serial (layout : Layout Value) : Machine (Bytes → Option Value) (CasCall × Stamp) where
  step event contents :=
    if ∀ check ∈ event.1.reads, layout.Matches contents check then
      some (layout.execute event.2 event.1.writes contents)
    else none

/-- Nobody but commits has written. -/
structure Undisturbed (layout : Layout Value) (s : State Value) : Prop extends Inv layout s where
  foreign : s.foreign = []
  applying : s.applying = none

theorem Undisturbed.step (undisturbed : Undisturbed layout s) (commits : commitsOnly s action)
    (stepped : step layout node action s = some s') : Undisturbed layout s' where
  toInv := undisturbed.toInv.step stepped
  foreign := (frame_of_commits commits stepped).1.trans undisturbed.foreign
  applying := (frame_of_commits commits stepped).2.trans undisturbed.applying

theorem Undisturbed.executes {tx : CasTx Value} (undisturbed : Undisturbed layout s)
    (holder : s.committing = some tx) (last : tx.phase = .writing stamp []) :
    layout.serial.step (tx.call, stamp) s.db.get = some (tx.overlay.commit s.db).get := by
  have sound := undisturbed.commit holder
  obtain ⟨checked, written⟩ := sound.at_commit last
  have matching : ∀ check ∈ tx.call.reads, layout.Matches s.db.get check := by
    intro check mem
    rw [← checked] at mem
    obtain ⟨⟨_, since⟩, passed, rfl⟩ := List.mem_map.mp mem
    exact (sound.passed passed).2 (by simp [undisturbed.foreign])
  simp only [Layout.serial, written]
  rw [if_pos matching]

/-- The commits of a position, however many calls wait for the lock and wherever they fail,
leave the database that executing exactly the committed calls leaves, one after another in
the order of their commits, each on contents that pass its checks. No other step changes the
database. -/
theorem commits_serialize {db : Store Value} {clock : Nat}
    (reached : (machine layout node).Reaches commitsOnly (initial db clock) s) :
    layout.serial.run anyAction s.committed db.get = some s.db.get ∧
      ∀ {action s'}, commitsOnly s action → step layout node action s = some s' →
        (∀ call stamp, s'.finished ≠ s.finished ++ [(call, .committed stamp)]) → s'.db = s.db := by
  constructor
  · refine reached.run_log layout.serial (fun s => s.db.get) State.committed (Undisturbed layout)
      ⟨.initial db clock, rfl, rfl⟩ rfl (fun inv commits stepped => inv.step commits stepped) ?_
    intro before after action undisturbed commits stepped
    rcases step_effect stepped with ⟨tx, stamp, holder, last, rfl⟩ | ⟨silent, kept⟩
    · exact .inr ⟨(tx.call, stamp), by simp [State.committed, State.finish],
        undisturbed.executes holder last⟩
    · exact .inl ⟨silent, congrArg Store.get (kept commits)⟩
  · intro action s' commits stepped unreported
    rcases step_effect stepped with ⟨tx, stamp, _, _, rfl⟩ | ⟨_, kept⟩
    · exact absurd rfl (unreported tx.call stamp)
    · exact kept commits

theorem absent_key_claimed_once :
    ∃ s, (machine envelopeLayout 1).Reaches commitsOnly
        (initial (Store.put ∅ [1] (.envelope ⟨⟨5, 2⟩, []⟩)) 3) s ∧
      s.finished = [(⟨[⟨[1], none⟩], [⟨[1], some [7]⟩]⟩, .committed ⟨6, 1⟩),
        (⟨[⟨[1], none⟩], [⟨[1], some [8]⟩]⟩, .conflict)] ∧
      envelopeLayout.serial.run anyAction [(⟨[⟨[1], none⟩], [⟨[1], some [7]⟩]⟩, ⟨6, 1⟩)]
        (Store.put ∅ [1] (.envelope ⟨⟨5, 2⟩, []⟩)).get = some s.db.get := by
  obtain ⟨s, reached, finished⟩ := (machine envelopeLayout 1).exists_reaches_of_run commitsOnly
    (List.flatten [[.call ⟨[⟨[1], none⟩], [⟨[1], some [7]⟩]⟩,
        .call ⟨[⟨[1], none⟩], [⟨[1], some [8]⟩]⟩, .lockCas 0],
      List.replicate 10 (.stepCas true 4), [.lockCas 0], List.replicate 4 (.stepCas true 4)])
    (initial (Store.put ∅ [1] (.envelope ⟨⟨5, 2⟩, []⟩)) 3)
    (fun s => s.finished = [(⟨[⟨[1], none⟩], [⟨[1], some [7]⟩]⟩, .committed ⟨6, 1⟩),
      (⟨[⟨[1], none⟩], [⟨[1], some [8]⟩]⟩, .conflict)])
    (by decide)
  have committed : s.committed = [(⟨[⟨[1], none⟩], [⟨[1], some [7]⟩]⟩, ⟨6, 1⟩)] := by
    rw [State.committed, finished]
    rfl
  exact ⟨s, reached, finished, committed ▸ (commits_serialize reached).1⟩

theorem rawLayout_matches {contents : Bytes → Option Bytes} {check : ReadCheck} :
    rawLayout.Matches contents check ↔ contents check.key = check.expected := by
  rw [Layout.Matches]
  cases contents check.key <;> simp [Layout.casReadPayload, rawLayout]

/-- At one replica, when a commit is reported its writes become visible, and until then
every key of its read-set has kept the value or absence it was validated against, unless a
plain write has touched the key since the commit read it. -/
theorem reads_hold_unless_overwritten {s s' : State Bytes} {action : Action Bytes}
    {db : Store Bytes} {clock : Nat}
    (reached : (machine rawLayout node).Reaches anyAction (initial db clock) s)
    (stepped : step rawLayout node action s = some s')
    (reported : s'.finished = s.finished ++ [(call, .committed stamp)]) :
    s'.db.get = rawLayout.execute stamp call.writes s.db.get ∧
      ∃ tx, s.committing = some tx ∧ tx.call = call ∧
        tx.validated.map Prod.fst = call.reads ∧
        ∀ check since, (check, since) ∈ tx.validated → check.key ∉ s.foreign.drop since →
          s.db.get check.key = check.expected := by
  obtain ⟨tx, holder, rfl, last, visible⟩ := commit_of_reported stepped reported
  have sound := (Inv.of_reaches reached).commit holder
  obtain ⟨checked, written⟩ := sound.at_commit last
  refine ⟨visible ▸ written, tx, holder, rfl, checked, fun _ _ passed untouched => ?_⟩
  exact rawLayout_matches.mp ((sound.passed passed).2 untouched)

theorem plain_write_before_validation :
    ∃ s s', (machine rawLayout 1).Reaches anyAction (initial ∅ 0) s ∧
      step rawLayout 1 (.stepCas true 0) s = some s' ∧
      s'.finished = [(⟨[⟨[1], none⟩, ⟨[2], some [5]⟩], [⟨[1], some [7]⟩]⟩, .committed ⟨0, 0⟩)] ∧
      s.foreign = [[2]] ∧ s.db.get [1] = none ∧ s.db.get [2] = some [5] := by
  obtain ⟨s, s', reached, stepped, fresh, foreign, finished, held⟩ :=
    (machine rawLayout 1).exists_step_of_run anyAction
      (List.flatten [[.call ⟨[⟨[1], none⟩, ⟨[2], some [5]⟩], [⟨[1], some [7]⟩]⟩, .lockCas 0],
        List.replicate 4 (.stepCas true 0), [.plain [2] (some [5])],
        List.replicate 4 (.stepCas true 0)])
      (.stepCas true 0) (initial ∅ 0)
      (fun s s' => s.finished = [] ∧ s.foreign = [[2]] ∧
        s'.finished = [(⟨[⟨[1], none⟩, ⟨[2], some [5]⟩], [⟨[1], some [7]⟩]⟩, .committed ⟨0, 0⟩)] ∧
        s.committing.map CasTx.validated = some [(⟨[1], none⟩, 0), (⟨[2], some [5]⟩, 1)])
      (by decide)
  rw [machine_step] at stepped
  obtain ⟨_, tx, holder, _, _, kept⟩ := reads_hold_unless_overwritten reached stepped
    (finished.trans (by rw [fresh, List.nil_append]))
  rw [holder, Option.map_some, Option.some.injEq] at held
  refine ⟨s, s', reached, stepped, finished, foreign, ?_, ?_⟩
  · exact kept ⟨[1], none⟩ 0 (by simp [held]) (by rw [foreign]; decide)
  · exact kept ⟨[2], some [5]⟩ 1 (by simp [held]) (by rw [foreign]; decide)

/-- A plain write between the validation of its key and the commit is lost: the commit is
reported although the key no longer has the value it was validated against, and overwrites
it. -/
theorem commit_overwrites_plain_write :
    ∃ s s', (machine rawLayout 1).Reaches anyAction (initial ∅ 0) s ∧
      step rawLayout 1 (.stepCas true 0) s = some s' ∧
      s'.finished = s.finished ++ [(⟨[⟨[1], none⟩], [⟨[1], some [7]⟩]⟩, .committed ⟨0, 0⟩)] ∧
      s.db.get [1] = some [9] ∧ s'.db.get [1] = some [7] := by
  exact (machine rawLayout 1).exists_step_of_run anyAction
    (List.flatten [[.call ⟨[⟨[1], none⟩], [⟨[1], some [7]⟩]⟩, .lockCas 0],
      List.replicate 4 (.stepCas true 0), [.plain [1] (some [9])],
      List.replicate 2 (.stepCas true 0)])
    (.stepCas true 0) (initial ∅ 0)
    (fun s s' =>
      s'.finished = s.finished ++ [(⟨[⟨[1], none⟩], [⟨[1], some [7]⟩]⟩, .committed ⟨0, 0⟩)] ∧
      s.db.get [1] = some [9] ∧ s'.db.get [1] = some [7])
    (by decide)

end Shale.Position
