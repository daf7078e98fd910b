import StageTree.Proofs.Timed.Length

/-! The run that a schedule plays is a run in virtual time, and it is played to its end. In the queue of a
schedule stand exactly the stages that can go on, the one at the top apart, so that a schedule which finds
nobody to go on may let time pass. -/

namespace StageTree.Schedule

variable {W U : Type} {s : Setting W U} {c c' : Schedule W U} {p : Pipeline} {w : W} {rank : U → Nat}

def timed (c : Schedule W U) : Timed W U := ⟨c.run, c.cancels⟩

/-- A queue in which exactly those stand that can go on, apart from the stage at the top. -/
structure Queued (s : Setting W U) (c : Schedule W U) : Prop where
  able : ∀ q ∈ c.queue, q ∈ (c.ready s).map Prod.fst
  all : ∀ q ∈ (c.ready s).map Prod.fst, q ≠ [] → q ∈ c.queue

theorem mem_byAge {positions : List (List Nat)} {q : List Nat} : q ∈ c.byAge positions ↔ q ∈ positions := by
  rw [byAge, List.mem_append, List.mem_filter, List.mem_filter, List.contains_iff_mem]
  by_cases h : q ∈ c.acted <;> simp [h]

theorem queued_requeue {arrange : List (List Nat) → List (List Nat)}
    (ha : ∀ l (q : List Nat), q ∈ arrange l ↔ q ∈ l) (c : Schedule W U) : (c.requeue s arrange).Queued s where
  able q hq := by
    rcases List.mem_append.1 hq with hq | hq
    · exact List.contains_iff_mem.1 (List.mem_filter.1 hq).2
    · rw [ha, mem_byAge] at hq
      exact (List.mem_filter.1 hq).1
  all q hq hne := by
    refine List.mem_append.2 ?_
    by_cases hm : q ∈ c.queue
    · exact .inl (List.mem_filter.2 ⟨hm, List.contains_iff_mem.2 hq⟩)
    · refine .inr ?_
      rw [ha, mem_byAge]
      exact List.mem_filter.2 ⟨hq, by simp [hne, hm]⟩

theorem mem_byScope (l : List (List Nat)) (q : List Nat) : q ∈ byScope l ↔ q ∈ l :=
  (List.mergeSort_perm _ _).mem_iff

/-- What a stage does first is one of the acts that it can do. -/
theorem mem_of_firstAct {position : List Nat} {acts : List Act} {x : Act}
    (h : c.firstAct position acts = some x) : x ∈ acts := by
  rw [firstAct, Option.orElse_eq_orElse, Option.orElse_eq_or, Option.or_eq_some_iff] at h
  rcases h with h | ⟨_, h⟩
  · simpa using List.find?_some h
  · exact List.mem_of_mem_head? h

theorem exists_firstAct (c : Schedule W U) (position : List Nat) {acts : List Act} (h : acts ≠ []) :
    ∃ x, c.firstAct position acts = some x := by
  obtain ⟨x, acts, rfl⟩ := List.exists_cons_of_ne_nil h
  rw [firstAct, Option.orElse_eq_orElse, Option.orElse_eq_or]
  cases List.find? (x :: acts).contains
    ((c.acted.filter fun p => p.dropLast == position).filterMap fun p => p.getLast?.map .join) with
  | none => exact ⟨x, rfl⟩
  | some y => exact ⟨y, rfl⟩

theorem mem_of_lookup {position : List Nat} {acts : List Act}
    (h : (c.ready s).lookup position = some acts) : (position, acts) ∈ c.ready s := by
  obtain ⟨front, back, e, _⟩ := List.lookup_eq_some_iff.1 h
  rw [e]
  simp

/-- A stage that goes on takes a step in virtual time. -/
theorem timed_of_goOn? (h : c.goOn? s = some c') :
    (∃ move, c.timed.step s move = some c'.timed) ∧ c'.Queued s := by
  simp only [goOn?, Option.bind_eq_bind, Option.bind_eq_some_iff, Option.some.injEq] at h
  obtain ⟨acts, hacts, x, hx, run, hrun, rfl⟩ := h
  refine ⟨⟨.stage (c.queue.headD []) x 0, Timed.step_eq_some.2 ⟨?_, hrun.trans ?_, ?_⟩⟩,
    queued_requeue mem_byScope _⟩
  · exact List.any_eq_true.2 ⟨_, mem_of_lookup hacts, by simpa using mem_of_firstAct hx⟩
  · split <;> rfl
  · split <;> rfl

/-- Some stage goes on as long as one can: the one at the head of the queue, or the one at the top. -/
theorem exists_goOn? (hq : c.Queued s) (hv : c.run.verdict = none) (hb : c.timed.Busy s) :
    ∃ c', c.goOn? s = some c' := by
  have hne : c.ready s ≠ [] := fun e => (Timed.ready_eq_nil (t := c.timed)).1 e hb
  have hmem : c.queue.headD [] ∈ (c.ready s).map Prod.fst := by
    cases hqueue : c.queue with
    | cons q rest => exact hq.able q (by simp [hqueue])
    | nil =>
      obtain ⟨⟨q, acts⟩, hm⟩ := List.exists_mem_of_ne_nil _ hne
      have hmap : q ∈ (c.ready s).map Prod.fst := List.mem_map_of_mem hm
      by_cases hq' : q = []
      · exact hq' ▸ hmap
      · have hin := hq.all q hmap hq'
        rw [hqueue] at hin
        cases hin
  obtain ⟨acts, hacts⟩ : ∃ acts, (c.ready s).lookup (c.queue.headD []) = some acts := by
    rw [← Option.isSome_iff_exists, List.lookup_isSome_iff]
    obtain ⟨e, he, heq⟩ := List.mem_map.1 hmem
    exact ⟨e, he, by simp [heq]⟩
  cases hp : c.run.present with
  | none =>
    rw [ready, hp] at hne
    exact absurd rfl hne
  | some a =>
    have hm := mem_of_lookup hacts
    rw [ready, hp, Option.elim_some] at hm
    obtain ⟨x, hx⟩ := exists_firstAct c (c.queue.headD []) (Activity.acts_ne_nil hm)
    obtain ⟨q, hq⟩ := (Activity.able_iff.1 ⟨acts, hm, mem_of_firstAct hx⟩).step s (c.run.moment a 0) c.run.world
    have hrun := Run.step_stage hv hp hq
    exact ⟨_, by simp only [goOn?, Option.bind_eq_bind, hacts, Option.bind_some, hx, hrun]; rfl⟩

/-- A cancellation that is due comes. -/
theorem timed_of_cancelNow? (h : c.cancelNow? s = some c') (hv : c.run.verdict = none) :
    (∃ move, c.timed.step s move = some c'.timed) ∧ c'.Queued s := by
  rw [cancelNow?] at h
  split at h
  · rename_i ms reason rest hc
    split at h
    · rename_i hms
      obtain rfl := Option.some.inj h
      refine ⟨⟨.cancel reason, Timed.step_eq_some.2 ⟨?_, Run.step_cancel reason hv, ?_⟩⟩,
        queued_requeue mem_byScope _⟩
      · simp [Timed.allows, Timed.cancelDue, timed, hc, hms]
      · simp [timed, requeue, Timed.cancelsAfter, hc]
    · cases h
  · cases h

theorem cancelNow?_eq_none (h : c.cancelNow? s = none) : c.timed.cancelDue = false := by
  rw [cancelNow?] at h
  split at h
  · rename_i ms reason rest hc
    split at h
    · cases h
    · rename_i hms
      simp [Timed.cancelDue, timed, hc, hms]
  · rename_i hc
    simp [Timed.cancelDue, timed, hc]

/-- Time passes when nobody can go on and no cancellation is due. -/
theorem timed_of_wait? (h : c.wait? s = some c') (hb : ¬ c.timed.Busy s) (hc : c.timed.cancelDue = false) :
    (∃ move, c.timed.step s move = some c'.timed) ∧ c'.Queued s := by
  simp only [wait?, Option.bind_eq_bind, Option.bind_eq_some_iff, Option.some.injEq] at h
  obtain ⟨ms, hms, run, hrun, rfl⟩ := h
  refine ⟨⟨.tick ms, Timed.step_eq_some.2 ⟨?_, hrun, rfl⟩⟩, queued_requeue (fun _ _ => Iff.rfl) _⟩
  have hwaits : (c.timed.waits s).min? = some ms := hms
  rw [Timed.allows, Timed.ready_eq_nil.2 hb, hc, hwaits]
  simp

/-- What happens next is a step in virtual time. -/
theorem timed_of_turn? (hq : c.Queued s) (hv : c.run.verdict = none) (h : c.turn? s = some c') :
    (∃ move, c.timed.step s move = some c'.timed) ∧ c'.Queued s := by
  simp only [turn?, Option.orElse_eq_orElse, Option.orElse_eq_or, Option.or_eq_some_iff] at h
  rcases h with h | ⟨_, h | ⟨hnone, h | ⟨hgo, h⟩⟩⟩
  · split at h
    · exact timed_of_goOn? h
    · cases h
  · exact timed_of_cancelNow? h hv
  · exact timed_of_goOn? h
  · refine timed_of_wait? h (fun hb => ?_) (cancelNow?_eq_none hnone)
    obtain ⟨c'', hc''⟩ := exists_goOn? hq hv hb
    rw [hgo] at hc''
    cases hc''

/-- As long as a run is not over, something happens next. -/
theorem exists_turn? (h : c.timed.Sound p) (hr : s.runner.Prompt rank) (hq : c.Queued s)
    (hv : c.run.verdict = none) : ∃ c', c.turn? s = some c' := by
  rw [turn?]
  simp only [Option.orElse_eq_orElse, Option.orElse_eq_or, ← Option.isSome_iff_exists, Option.isSome_or,
    Bool.or_eq_true]
  by_contra hnone
  simp only [not_or, Bool.not_eq_true, Option.isSome_eq_false_iff, Option.isNone_iff_eq_none] at hnone
  obtain ⟨_, hcancel, hgo, hwait⟩ := hnone
  have hc := cancelNow?_eq_none hcancel
  obtain ⟨move, t', ht⟩ := Timed.exists_step h hr hv
  cases (Timed.moved_of_step ht).2 with
  | stage ha hx hq' =>
    obtain ⟨c', hc'⟩ := exists_goOn? hq hv ⟨_, _, _, ha, hx⟩
    rw [hgo] at hc'
    cases hc'
  | cancel hcs hms =>
    rw [Timed.cancelDue, hcs] at hc
    simp [hms] at hc
  | @tick ms hb hcd hmin hlt =>
    have hrun := Run.step_tick (s := s) hv hlt
    have hmin' : (c.run.present.elim [] (Activity.dues s.runner.due) ++ c.cancels.map Prod.fst).min? =
        some ms := hmin
    simp [wait?, hmin', hrun] at hwait

/-- A schedule with enough turns plays a run in virtual time to its end. -/
theorem exists_moved_play (hp : p.Proper) (hr : s.runner.Prompt rank) (h : c.timed.Sound p)
    (hq : c.Queued s) {fuel : Nat} (hf : c.timed.movesLeft s rank < fuel) :
    ∃ moves t, c.timed.moved s moves = some t ∧ t.run = play s fuel c ∧ t.run.verdict.isSome = true := by
  induction fuel generalizing c with
  | zero => exact absurd hf (Nat.not_lt_zero _)
  | succ fuel ih =>
    rw [play]
    split
    · rename_i hv
      exact ⟨[], c.timed, rfl, rfl, hv⟩
    · rename_i hv
      have hv : c.run.verdict = none := by simpa using hv
      obtain ⟨c', hc'⟩ := exists_turn? h hr hq hv
      obtain ⟨⟨move, hstep⟩, hq'⟩ := timed_of_turn? hq hv hc'
      have hlt := Timed.movesLeft_lt h hr hstep
      obtain ⟨moves, t, hmoves, hrun, hover⟩ := ih (h.step hp hstep) hq' (by omega)
      refine ⟨move :: moves, t, ?_, ?_, hover⟩
      · rw [Timed.moved, List.foldlM_cons, hstep]
        exact hmoves
      · rw [hc']
        exact hrun

end StageTree.Schedule

namespace StageTree.Run

variable {W U : Type} {s : Setting W U} {p : Pipeline} {rank : U → Nat}

/-- The run of a pipeline, as it is executed, is a run in virtual time up to its end. -/
theorem exists_moved_execute (hp : p.Proper) (hr : s.runner.Prompt rank) (cancels : List (Nat × String))
    (w : W) : ∃ moves t, (Timed.begin p w cancels).moved s moves = some t ∧
      t.run = execute s cancels w p ∧ t.run.verdict.isSome = true := by
  refine Schedule.exists_moved_play (c := { run := begin p w, cancels := cancelsInOrder cancels }) hp hr
    (Timed.sound_begin hp w cancels) ⟨by simp, fun q hq hne => ?_⟩ (Timed.movesLeft_begin s rank hp w cancels)
  obtain ⟨st, future, hs⟩ := List.exists_cons_of_ne_nil hp.stages
  simp [Schedule.ready, begin, advance, hs, Activity.ready_eq, Activity.ofStage] at hq
  exact absurd hq hne

end StageTree.Run
