import StageTree.Proofs.Activity.Blame
import StageTree.Proofs.Run.Ledger

/-! Runs that are not cancelled from outside. Such a run never ends with a cancellation, and each stage
that it records as cancelled lies in a branch of a group that fails fast, beside another branch that is
recorded as failed. -/

namespace StageTree.Run

variable {W U : Type} {s : Setting W U} {r r' : Run W U} {p : Pipeline} {w : W}

/-- A run that is not cancelled, in which every cancellation has someone to blame. -/
structure Blamed (r : Run W U) : Prop where
  live : r.cancelled = none
  trees : ∀ a ∈ r.past ++ r.present.toList, a.Blamed

theorem blamed_begin (p : Pipeline) (w : W) : (begin p w : Run W U).Blamed := by
  rw [begin, advance]
  cases hs : p.stages with
  | nil => exact ⟨rfl, by simp⟩
  | cons st future =>
    refine ⟨rfl, fun a ha => ?_⟩
    obtain rfl : a = .ofStage st := by simpa using ha
    exact Activity.blamed_ofStage st

theorem Blamed.moved (h : r.Blamed) (hs : r.Sound p) (hr : s.runner.Honest) {move : Move}
    (hmove : ∀ reason, move ≠ .cancel reason) (hm : Moved s r move r') : r'.Blamed := by
  cases hm with
  | @stage a q position x draw ha hq =>
    have htree : q.activity.Blamed := (hs.stepped ha hq).blamed hr h.live (hs.present a ha).1
      (h.trees a (by simp [ha]))
    exact ⟨(take_cancelled r q).trans h.live, forall_take Activity.blamed_ofStage
      (fun b hb => h.trees b (List.mem_append_left _ hb)) htree⟩
  | cancel reason => exact absurd rfl (hmove reason)
  | tick hlt => exact ⟨h.live, h.trees⟩

theorem blamed_of_moved (hp : p.Proper) (hr : s.runner.Honest) {moves : List Move}
    (hc : ∀ reason, .cancel reason ∉ moves) (h : (begin p w).moved s moves = some r) : r.Blamed :=
  (moved_invariant (P := fun r => r.Sound p ∧ r.Blamed)
    (fun _ _ _ hmem ⟨hs, hb⟩ hstep =>
      ⟨hs.moved hp (moved_of_step hstep).2,
        hb.moved hs hr (fun reason e => hc reason (e ▸ hmem)) (moved_of_step hstep).2⟩)
    ⟨sound_begin hp w, blamed_begin p w⟩ h).2

/-- The error of a run in which every cancellation has someone to blame is a failure. -/
theorem Blamed.isFailure (h : r.Blamed) (hs : r.Sound p) {e : RunError} (he : r.error? = some e) :
    e.isFailure = true := by
  have hv : r.verdict = some (some e) := by simpa [error?, Option.join_eq_some_iff] using he
  obtain ⟨front, a, hpast, ha⟩ := hs.verdict e hv
  have hc := (h.trees a (by simp [hpast])).here
  simpa [Activity.isCancelled, ha, RunError.isFailure] using hc

/-- Whatever the order in which its stages go on, end and are joined, a run that is not cancelled from
outside does not end with a cancellation, and a stage that it records as cancelled lies in a branch of a
group that fails fast, of which another branch is recorded as failed. -/
theorem cancelled_beside_failed (hv : p.violation? = none) (hr : s.runner.Provided) {moves : List Move}
    (hc : ∀ reason, .cancel reason ∉ moves) (h : (begin p w).moved s moves = some r) :
    (∀ e, r.error? = some e → e.isCancellation = false) ∧
      ∀ rec ∈ r.records, rec.status = .cancel →
        ∃ above branch rest group b other, rec.path = above ++ branch :: rest ∧
          p.find? above = some group ∧ group.failsFast = true ∧
          b ∈ group.branches ∧ b.name = branch ∧
          other ∈ group.branches ∧ other.name ≠ branch ∧
          ∃ rec' ∈ r.records, rec'.path = above ++ [other.name] ∧ rec'.status = .fail := by
  have hp := Pipeline.proper_of_violation?_eq_none hv
  have hs := sound_of_moved hp h
  have hm := marked_of_moved hp h
  have hb := blamed_of_moved hp hr.honest hc h
  refine ⟨fun e he => by simpa [RunError.isFailure] using hb.isFailure hs he, fun rec hrec hstatus => ?_⟩
  obtain ⟨⟨path, n⟩, hn, hnrec⟩ := List.mem_filterMap.1 (hm.records_perm.mem_iff.1 hrec)
  obtain ⟨rfl, hnstatus, _⟩ := Activity.record?_eq_some hnrec
  have hcancelled : n.isCancelled = true := Status.ofError_eq_cancel.1 (hnstatus.symm.trans hstatus)
  obtain ⟨top, rest, hpath⟩ : ∃ top rest, rec.path = top :: rest := by
    refine List.exists_cons_of_ne_nil fun e => ?_
    have hat := (hs.mem_nodes hp).1 hn
    rw [e] at hat
    cases hat
  have hat := (hs.mem_nodes hp).1 hn
  rw [hpath] at hat
  obtain ⟨a, ha, hat⟩ := Option.bind_eq_some_iff.1 hat
  have hmem := ((Activity.named?_eq_some (hs.names hp)).1 ha).1
  obtain ⟨above, name, rest, g, b, c, rfl, hg, hff, hbm, rfl, hcm, hne, hfail⟩ :=
    (hb.trees a hmem).beside (hs.sound_of_mem hmem) hat hcancelled
  have hrun (path : List String) : r.at? (top :: path) = a.at? path := by
    rw [at?, ha, Option.bind_some]
  have hgs : g.Sound := by
    have hgn : ([top] ++ above, g) ∈ a.nodes [top] :=
      (Activity.mem_nodes (hs.sound_of_mem hmem).distinct).2 ⟨above, rfl, hg⟩
    exact (hs.sound_of_mem hmem).of_mem_nodes hgn
  have hstages := hgs.here.stages_of_mem hbm
  -- the record of the branch that failed
  have hcat : r.at? (top :: above ++ [c.stage.name]) = some c := by
    rw [List.cons_append, hrun, Activity.at?_append, hg, Option.bind_some, Activity.at?,
      (Activity.named?_eq_some hgs.here.names).2 ⟨hcm, rfl⟩]
    rfl
  obtain ⟨ms, lines, error, hph⟩ := Activity.hasEnded_iff.1 (Activity.hasEnded_of_hasFailed hfail)
  have hcrec := Activity.record?_of_phase (top :: above ++ [c.stage.name]) hph
  refine ⟨top :: above, b.stage.name, rest, g.stage, b.stage, c.stage, hpath,
    hs.find?_eq hp ((hrun above).trans hg), hff, hstages ▸ List.mem_map_of_mem hbm, rfl,
    hstages ▸ List.mem_map_of_mem hcm, hne, _,
    hm.records_perm.mem_iff.2 (List.mem_filterMap.2 ⟨_, (hs.mem_nodes hp).2 hcat, hcrec⟩), rfl, ?_⟩
  have hstatus' := (Activity.record?_eq_some hcrec).2.1
  rw [hstatus']
  exact Status.ofError_eq_fail.2 hfail

/-- The first branch fails and is joined before the runner of the second one is looked at. -/
def forkCancelMoves : List Move :=
  [.stage [] .start 0, .stage [0] .start 0, .stage [1] .start 0, .tick 2, .stage [0] .look 0,
    .stage [] (.join 0) 0, .stage [1] .look 0, .stage [] (.join 1) 0]

theorem cancelled_beside_failed_fork :
    ∃ r, (begin (.fork true) {}).moved forkSetting forkCancelMoves = some r ∧
      r.records.map StageRecord.status = [.fail, .cancel, .fail] ∧
      (∀ e, r.error? = some e → e.isCancellation = false) ∧
      ∀ rec ∈ r.records, rec.status = .cancel →
        ∃ above branch rest group b other, rec.path = above ++ branch :: rest ∧
          (Pipeline.fork true).find? above = some group ∧ group.failsFast = true ∧
          b ∈ group.branches ∧ b.name = branch ∧
          other ∈ group.branches ∧ other.name ≠ branch ∧
          ∃ rec' ∈ r.records, rec'.path = above ++ [other.name] ∧ rec'.status = .fail := by
  have hover : (((begin (.fork true) {}).moved forkSetting forkCancelMoves).map fun r =>
      r.records.map StageRecord.status) = some [.fail, .cancel, .fail] := by decide
  obtain ⟨r, hr, hv⟩ := Option.map_eq_some_iff.1 hover
  exact ⟨r, hr, hv, cancelled_beside_failed (by decide) (Runner.Provided.scripted forkScript)
    (by simp [forkCancelMoves]) hr⟩

end StageTree.Run
