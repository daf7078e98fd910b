import StageTree.Proofs.Activity.Reason
import StageTree.Proofs.Run.History

/-! What becomes of a run whose units follow scripts: of its stages that have ended, of the one at work, and
of those to come. Once the run is over its records and its results tell of nothing else. -/

namespace StageTree

/-- What a record says of its stage: path, status, start and end. -/
def StageRecord.row (r : StageRecord) : List String × Status × Instant × Instant :=
  (r.path, r.status, r.startedAt, r.finishedAt)

namespace Fate

theorem rowsAll_eq (above : List String) (fates : List Fate) : rowsAll above fates = fates.flatMap (rows above) := by
  induction fates with
  | nil => rfl
  | cons f fates ih => rw [rowsAll, ih, List.flatMap_cons]

theorem kept_eq (fates : List Fate) : kept fates = (fates.filter (·.status ≠ .cancel)).flatMap entries := by
  induction fates with
  | nil => rfl
  | cons f fates ih =>
    rw [kept, ih, List.filter_cons]
    by_cases h : f.status = .cancel <;> simp [h]

end Fate

namespace Activity

variable {scriptOf : String → Script} {vars : Bindings} {now : Nat} {a : Activity Asleep}
  {deadline : Option Nat}

/-- The records of a tree that has ended. -/
theorem predict_rows (ha : a.Sound) (he : a.hasEnded = true) (above : List String) :
    ((a.nodes (above ++ [a.stage.name])).filterMap fun n => n.2.record? n.1).map StageRecord.row =
      (a.predict scriptOf vars now deadline).rows above := by
  induction ha generalizing above with
  | @mk a here below ih =>
    obtain ⟨ms, lines, error, hp⟩ := hasEnded_iff.1 he
    rw [nodes_eq, List.filterMap_cons, record?_of_phase _ hp, nodesBelow_eq_flatMap, List.filterMap_flatMap,
      List.map_cons, List.map_flatMap, predict_ended hp, Fate.rows, Fate.rowsAll_eq, predictAll_eq,
      List.flatMap_map]
    refine congrArg _ (List.flatMap_congr fun b hb => ?_)
    exact ih b hb (here.hasEnded_of_mem (by simp [hp]) hb) (above ++ [a.stage.name])

/-- The entries that a tree which has ended adds to the results. -/
theorem predict_entries (ha : a.Sound) (he : a.hasEnded = true) :
    (a.predict scriptOf vars now deadline).entries = a.entries := by
  induction ha with
  | @mk a here below ih =>
    obtain ⟨ms, lines, error, hp⟩ := hasEnded_iff.1 he
    have hnot : a.phase ≠ .fanned := by simp [hp]
    have hended {b : Activity Asleep} (hb : b ∈ a.branches) : b.hasEnded = true := here.hasEnded_of_mem hnot hb
    have hkept : Fate.kept (predictAll scriptOf vars now a.branches deadline) = kept a.branches := by
      rw [Fate.kept_eq, kept, predictAll_eq, List.filter_map, List.flatMap_map]
      have hfilter : a.branches.filter ((fun f : Fate => f.status ≠ .cancel) ∘
          fun b => b.predict scriptOf vars now deadline) = a.branches.filter fun b => !b.isCancelled := by
        refine List.filter_congr fun b hb => ?_
        obtain ⟨ms', lines', error', hbp⟩ := hasEnded_iff.1 (hended hb)
        have hstatus : Status.ofError error' = .cancel ↔ b.isCancelled = true := by
          rw [isCancelled, error?_of_phase hbp, Status.ofError_eq_cancel]
        cases hc : b.isCancelled <;> simp_all [predict_ended hbp]
      rw [hfilter]
      refine List.flatMap_congr fun b hb => ?_
      have hm := (List.mem_filter.1 hb).1
      exact ih b hm (hended hm)
    have hgroup : (if (predictAll scriptOf vars now a.branches deadline).isEmpty then none
        else some (Fate.kept (predictAll scriptOf vars now a.branches deadline))) =
          a.fan.map fun _ => kept a.branches := by
      rw [hkept, predictAll_eq]
      cases hf : a.fan with
      | none => simp [here.single hf]
      | some f => simp [here.ne_nil hf]
    rw [predict_ended hp, Fate.entries, hgroup, entries, here.value?_eq hnot, lines_of_phase hp]

end Activity

namespace Run

variable (scriptOf : String → Script) (vars : Bindings)

/-- What becomes of the stages of a run from now on, under a deadline. -/
def fates (r : Run Journal Asleep) (deadline : Option Nat) : List Fate :=
  Activity.predictAll scriptOf vars r.now r.past deadline ++
    match r.present with
    | some a =>
      let f := a.predict scriptOf vars r.now deadline
      f :: if f.status = .ok then Stage.inTurn scriptOf vars deadline f.ends r.future else []
    | none => []

/-- The error that a run ends with if it is never cancelled from outside. -/
def reason (r : Run Journal Asleep) : Option RunError :=
  match r.present with
  | some a =>
    let f := a.predict scriptOf vars r.now none
    if f.status = .ok then Stage.failureInTurn scriptOf vars f.ends r.future else a.reason scriptOf vars r.now
  | none => r.error?

variable {scriptOf : String → Script} {vars : Bindings} {r : Run Journal Asleep} {p : Pipeline}
  {w : Journal} {a : Activity Asleep} {q : Played Journal Asleep} {deadline : Option Nat}

theorem fates_begin (hp : p.Proper) (w : Journal) (deadline : Option Nat) :
    (begin p w).fates scriptOf vars deadline = p.fates scriptOf vars deadline := by
  obtain ⟨st, future, hs, e⟩ := exists_begin_eq (U := Asleep) hp w
  rw [e, Pipeline.fates, hs]
  rfl

theorem reason_begin (hp : p.Proper) (w : Journal) :
    (begin p w).reason scriptOf vars = p.failure? scriptOf vars := by
  obtain ⟨st, future, hs, e⟩ := exists_begin_eq (U := Asleep) hp w
  rw [e, Pipeline.failure?, hs]
  rfl

/-- If the stage at work has the same ahead of it after a step, so has the run. -/
theorem fates_take (ha : r.present = some a)
    (hq : q.activity.predict scriptOf vars r.now deadline = a.predict scriptOf vars r.now deadline)
    (hms : ∀ ms lines error, q.activity.phase = .ended ms lines error → ms = r.now) :
    (r.take q).fates scriptOf vars deadline = r.fates scriptOf vars deadline := by
  have htaking := taking_take r q
  generalize r.take q = r' at htaking ⊢
  simp only [fates, ha, ← hq]
  cases htaking with
  | on hn => rfl
  | @next ms lines st future he hf =>
    obtain rfl := hms _ _ _ he
    rw [Activity.predict_ended he, hf, Activity.predictAll_eq, Activity.predictAll_eq, List.map_append,
      List.append_assoc]
    simp only [List.map_cons, List.map_nil, Activity.predict_ended he]
    rfl
  | @completed ms lines he hf =>
    rw [Activity.predict_ended he, hf, Activity.predictAll_eq, Activity.predictAll_eq, List.map_append]
    simp only [List.map_cons, List.map_nil, Activity.predict_ended he]
    simp [Stage.inTurn]
  | @failed ms lines e he =>
    have hne : Status.ofError (some e) ≠ .ok := by cases hc : e.isCancellation <;> simp [Status.ofError, hc]
    rw [Activity.predict_ended he, Activity.predictAll_eq, Activity.predictAll_eq, List.map_append]
    simp only [List.map_cons, List.map_nil, Activity.predict_ended he]
    simp [hne]

/-- If the stage at work ends with the same error after a step, so does the run. -/
theorem reason_take (ha : r.present = some a)
    (hq : q.activity.predict scriptOf vars r.now none = a.predict scriptOf vars r.now none)
    (hreason : q.activity.reason scriptOf vars r.now = a.reason scriptOf vars r.now)
    (hms : ∀ ms lines error, q.activity.phase = .ended ms lines error → ms = r.now) :
    (r.take q).reason scriptOf vars = r.reason scriptOf vars := by
  have htaking := taking_take r q
  generalize r.take q = r' at htaking ⊢
  simp only [reason, ha, ← hq, ← hreason]
  cases htaking with
  | on hn => rfl
  | @next ms lines st future he hf =>
    obtain rfl := hms _ _ _ he
    rw [Activity.predict_ended he, hf]
    rfl
  | completed he hf =>
    rw [Activity.predict_ended he, hf]
    rfl
  | @failed ms lines e he =>
    have hne : Status.ofError (some e) ≠ .ok := by cases hc : e.isCancellation <;> simp [Status.ofError, hc]
    rw [Activity.predict_ended he, if_neg hne, Activity.reason_ended he]
    rfl

/-- The records of a run that is over are those of its stages. -/
theorem rows_perm (h : r.Sound p) (hm : r.Marked) (hover : r.present = none) :
    (r.records.map StageRecord.row).Perm ((r.fates scriptOf vars deadline).flatMap (Fate.rows [])) := by
  refine (hm.records_perm.map _).trans (List.Perm.of_eq ?_)
  rw [nodes, hover, Option.toList_none, List.append_nil, Activity.nodesBelow_eq_flatMap, List.filterMap_flatMap,
    List.map_flatMap, fates, hover, List.append_nil, Activity.predictAll_eq, List.flatMap_map]
  exact List.flatMap_congr fun a ha => Activity.predict_rows (h.past a ha).1 (h.past a ha).2 []

/-- So are its results. -/
theorem entries_eq (h : r.Sound p) (hp : p.Proper) (hover : r.present = none) :
    r.results.entries = (r.fates scriptOf vars deadline).flatMap Fate.entries := by
  rw [results_entries h hp, fates, hover, List.append_nil, Activity.predictAll_eq, List.flatMap_map]
  exact List.flatMap_congr fun a ha => (Activity.predict_entries (h.past a ha).1 (h.past a ha).2).symm

end Run

end StageTree
