import StageTree.Proofs.Group.Queue

/-! What joining a group comes to: one report for each task, in the order in which the owner came to them,
the error that follows from the reports, and the one task at most that cancels the group. -/

namespace StageTree

namespace TaskGroup

variable {α : Type} {g g' g₀ b b' d d' : TaskGroup α} {move : GroupMove α} {moves : List (GroupMove α)}
  {r s : Report α} {p c : Nat}

/-! ### The joins of a run -/

/-- Among the moves of a group a task of the report is joined, by which the group goes from `b` to `b'`. -/
inductive Joins (g₀ : TaskGroup α) (moves : List (GroupMove α)) (b b' : TaskGroup α) : Report α → Prop
  | intro {before after : List (GroupMove α)} {i : Nat} {name : String} {how : TaskEnd α}
      (split : moves = before ++ .join i :: after) (run : g₀.run before = some b)
      (task : b.tasks[i]? = some ⟨name, .ended how⟩) (step : b.step (.join i) = some b') :
      Joins g₀ moves b b' (how.report i name)

namespace Joins

theorem reached (h : Joins g₀ moves b b' r) : ∃ before, g₀.run before = some b := by
  cases h with
  | intro _ run => exact ⟨_, run⟩

theorem eq_joinReport (h : Joins g₀ moves b b' r) : b' = b.joinReport r := by
  cases h with
  | intro _ _ task step =>
    cases moved_of_step step with
    | join ht =>
      obtain ⟨rfl, e⟩ := GroupTask.mk.inj (Option.some.inj (ht.symm.trans task))
      rw [TaskState.ended.inj e]

theorem concat (h : Joins g₀ moves b b' r) (move : GroupMove α) : Joins g₀ (moves ++ [move]) b b' r := by
  cases h with
  | intro split run task step => exact .intro (by rw [split, List.append_assoc]; rfl) run task step

/-- A join is the last one of the moves or one before. -/
theorem of_concat (hrun : g₀.run moves = some g) (h : Joins g₀ (moves ++ [move]) b b' r) :
    Joins g₀ moves b b' r ∨ b = g ∧ ∃ i name how,
      move = .join i ∧ g.tasks[i]? = some ⟨name, .ended how⟩ ∧ r = how.report i name := by
  cases h with
  | @intro before after i name how split run task step =>
    rcases eq_concat_cases split with ⟨rfl, e, _⟩ | ⟨rest, _, e⟩
    · obtain rfl := Option.some.inj (run.symm.trans hrun)
      exact .inr ⟨rfl, i, name, how, e.symm, task, rfl⟩
    · exact .inl (.intro e run task step)

end Joins

/-! ### The task that cancels a group -/

/-- A move that joins no task leaves the outcome of the group as it is. -/
theorem Moved.cases_join (hm : g.Moved move g') :
    (∃ i name how, move = .join i ∧ g.tasks[i]? = some ⟨name, .ended how⟩ ∧
        g' = g.joinReport (how.report i name)) ∨
      (∀ i, move ≠ .join i) ∧ g'.hook = g.hook ∧ g'.told = g.told ∧ g'.join = g.join := by
  cases hm with
  | join ht hd => exact .inl ⟨_, _, _, rfl, ht, rfl⟩
  | spawn | scope | work | finish | drop => exact .inr ⟨nofun, rfl, rfl, rfl⟩
  | tearDown =>
    obtain ⟨f, e⟩ := tearDown_cases g
    rw [e]
    exact .inr ⟨nofun, rfl, rfl, rfl⟩

theorem Moved.failFast_eq (hm : g.Moved move g') : g'.failFast = g.failFast := by
  cases hm with
  | join ht =>
    obtain ⟨forest, hook, told, e⟩ := joinReport_cases ht _
    rw [e]
  | spawn | scope | work | finish | drop => rfl
  | tearDown =>
    obtain ⟨f, e⟩ := tearDown_cases g
    rw [e]

theorem failFast_of_run (h : g₀.run moves = some g) : g.failFast = g₀.failFast :=
  foldlM_induction (P := fun _ g => g.failFast = g₀.failFast) rfl
    (fun _ _ _ _ _ ih hs => (moved_of_step hs).failFast_eq.trans ih) h

/-- A report that comes when the group stands at `b` makes it cancel its scope. -/
def Fatal (g₀ b : TaskGroup α) (r : Report α) : Prop := Join.cancels g₀.failFast b.reason? r = true

/-- Nobody or one task has cancelled a group by the moves so far. -/
inductive Blamed (g₀ : TaskGroup α) (moves : List (GroupMove α)) (g : TaskGroup α) : Prop
  | nobody (spared : ∀ b b' r, Joins g₀ moves b b' r → ¬ Fatal g₀ b r) (cancelledBy : g.join.cancelledBy = none)
      (hook : g.hook = g₀.hook) (told : g.told = [])
  | somebody {b b' : TaskGroup α} {r : Report α} (joins : Joins g₀ moves b b' r) (fatal : Fatal g₀ b r)
      (only : ∀ d d' s, Joins g₀ moves d d' s → Fatal g₀ d s → s = r)
      (cancelledBy : g.join.cancelledBy = some r.name) (reason : g.reason? = some (Join.failureReason r.name))
      (told : g.told = if g₀.hook then [r.name] else [])

namespace Blamed

theorem of_no_join (h : Blamed g₀ moves g) (hrun : g₀.run moves = some g) (hs : g.Scoped p c)
    (hm : g.Moved move g') (hmove : ∀ i, move ≠ .join i) (hhook : g'.hook = g.hook) (htold : g'.told = g.told)
    (hjoin : g'.join = g.join) : Blamed g₀ (moves ++ [move]) g' := by
  have hback {d d' : TaskGroup α} {s : Report α} (hj : Joins g₀ (moves ++ [move]) d d' s) : Joins g₀ moves d d' s :=
    (hj.of_concat hrun).resolve_right fun ⟨_, i, _, _, e, _⟩ => hmove i e
  cases h with
  | nobody spared cancelledBy hook told =>
    exact .nobody (fun d d' s hj => spared d d' s (hback hj)) (by rw [hjoin, cancelledBy])
      (by rw [hhook, hook]) (by rw [htold, told])
  | somebody joins fatal only cancelledBy reason told =>
    exact .somebody (joins.concat move) fatal (fun d d' s hj => only d d' s (hback hj))
      (by rw [hjoin, cancelledBy]) (hs.reason?_moved hm reason) (by rw [htold, told])

theorem join (h : Blamed g₀ moves g) (hrun : g₀.run moves = some g) (hs : g.Scoped p c) {i : Nat}
    {name : String} {how : TaskEnd α} (ht : g.tasks[i]? = some ⟨name, .ended how⟩)
    (hstep : g.step (.join i) = some (g.joinReport (how.report i name))) :
    Blamed g₀ (moves ++ [.join i]) (g.joinReport (how.report i name)) := by
  have hback {d d' : TaskGroup α} {s : Report α} (hj : Joins g₀ (moves ++ [.join i]) d d' s) :
      Joins g₀ moves d d' s ∨ d = g ∧ s = how.report i name := by
    refine (hj.of_concat hrun).imp_right fun ⟨hd, j, name', how', e, ht', hs⟩ => ⟨hd, ?_⟩
    obtain rfl := GroupMove.join.inj e
    obtain ⟨rfl, e⟩ := GroupTask.mk.inj (Option.some.inj (ht.symm.trans ht'))
    rw [TaskState.ended.inj e, hs]
  have hfast := failFast_of_run hrun
  cases h with
  | nobody spared cancelledBy hook told =>
    by_cases hc : Fatal g₀ g (how.report i name)
    · have hc' : Join.cancels g.failFast g.reason? (how.report i name) = true := by rw [hfast]; exact hc
      have hreason := hs.reason?_joinReport (r := how.report i name) (Join.cancels_iff.1 hc').2.1
      rw [if_pos hc'] at hreason
      refine .somebody (.intro rfl hrun ht hstep) hc (fun d d' s hj hf => ?_) ?_ hreason ?_
      · rcases hback hj with hj | ⟨_, e⟩
        · exact absurd hf (spared d d' s hj)
        · exact e
      · rw [joinReport_of_cancels hs.held hc', Join.add, if_pos hc']
      · rw [joinReport_of_cancels hs.held hc', ← hook, told]
        rfl
    · have hc' : Join.cancels g.failFast g.reason? (how.report i name) = false := by
        rw [hfast]
        exact eq_false_of_ne_true hc
      rw [joinReport_of_not_cancels hc']
      refine .nobody (fun d d' s hj => ?_) ?_ hook told
      · rcases hback hj with hj | ⟨rfl, rfl⟩
        · exact spared d d' s hj
        · exact hc
      · rw [Join.add, hc', if_neg Bool.false_ne_true, cancelledBy]
  | somebody joins fatal only cancelledBy reason told =>
    -- the scope is cancelled already
    have hc : Join.cancels g.failFast g.reason? (how.report i name) = false := by
      rw [reason]
      simp [Join.cancels]
    have hreason := hs.reason?_moved (moved_of_step hstep) reason
    rw [joinReport_of_not_cancels hc] at hreason ⊢
    refine .somebody (joins.concat _) fatal (fun d d' s hj hf => ?_) ?_ hreason told
    · rcases hback hj with hj | ⟨rfl, rfl⟩
      · exact only d d' s hj hf
      · rw [Fatal, ← hfast, hc] at hf
        cases hf
    · rw [Join.add, hc, if_neg Bool.false_ne_true, cancelledBy]

theorem run (hs : g₀.Scoped p c) (hj : g₀.join = {}) (ht : g₀.told = []) (h : g₀.run moves = some g) :
    Blamed g₀ moves g := by
  refine foldlM_induction (P := Blamed g₀) ?_ (fun before move b b' hb hblame hstep => ?_) h
  · refine .nobody (fun b b' r hj => ?_) (by rw [hj]) rfl ht
    cases hj with
    | intro split => exact absurd split.symm (by simp)
  · have hm := moved_of_step hstep
    have hscoped := hs.run hb
    rcases hm.cases_join with ⟨i, name, how, rfl, htask, rfl⟩ | ⟨hmove, hhook, htold, hjoin⟩
    · exact hblame.join hb hscoped htask hstep
    · exact hblame.of_no_join hb hscoped hm hmove hhook htold hjoin

end Blamed

theorem fatal_iff : Fatal g₀ b r ↔
    g₀.failFast = true ∧ b.reason? = none ∧ r.error.any RunError.isFailure = true :=
  Join.cancels_iff

/-- What a join does to the scope of the group while that is live. -/
theorem Joins.reason_cases (hs : g₀.Scoped p c) (hj : Joins g₀ moves b b' r) (hr : b.reason? = none) :
    Fatal g₀ b r ∧ b'.reason? = some (Join.failureReason r.name) ∨ ¬ Fatal g₀ b r ∧ b'.reason? = none := by
  obtain ⟨before, hb⟩ := hj.reached
  have hreason := (hs.run hb).reason?_joinReport (r := r) hr
  rw [← hj.eq_joinReport, failFast_of_run hb] at hreason
  by_cases hf : Fatal g₀ b r
  · exact .inl ⟨hf, hreason.trans (if_pos hf)⟩
  · exact .inr ⟨hf, hreason.trans (if_neg hf)⟩

theorem Joins.fatal (hs : g₀.Scoped p c) (hj : Joins g₀ moves b b' r) (hr : b.reason? = none)
    (hr' : b'.reason? ≠ none) : Fatal g₀ b r :=
  ((hj.reason_cases hs hr).resolve_right fun h => hr' h.2).1

theorem Joins.cancelled (hs : g₀.Scoped p c) (hj : Joins g₀ moves b b' r) (hf : Fatal g₀ b r) :
    b'.reason? = some (Join.failureReason r.name) :=
  ((hj.reason_cases hs (fatal_iff.1 hf).2.1).resolve_right fun h => h.1 hf).2

/-- A join cancels the live scope of a group where the group fails fast and the task failed. -/
theorem exists_cancelling_iff (hs : g₀.Scoped p c) :
    (∃ b b' r, Joins g₀ moves b b' r ∧ b.reason? = none ∧ b'.reason? ≠ none) ↔ g₀.failFast = true ∧
      ∃ b b' r, Joins g₀ moves b b' r ∧ b.reason? = none ∧ r.error.any RunError.isFailure = true := by
  refine ⟨?_, ?_⟩
  · rintro ⟨b, b', r, hj, hr, hr'⟩
    obtain ⟨hfast, _, hfail⟩ := fatal_iff.1 (hj.fatal hs hr hr')
    exact ⟨hfast, b, b', r, hj, hr, hfail⟩
  · rintro ⟨hfast, b, b', r, hj, hr, hfail⟩
    have hcancelled := hj.cancelled hs (fatal_iff.2 ⟨hfast, hr, hfail⟩)
    exact ⟨b, b', r, hj, hr, by simp [hcancelled]⟩

theorem Blamed.of_cancelling (h : Blamed g₀ moves g) (hs : g₀.Scoped p c) (hj : Joins g₀ moves b b' r)
    (hr : b.reason? = none) (hr' : b'.reason? ≠ none) :
    r.error.any RunError.isFailure = true ∧ b'.reason? = some (Join.failureReason r.name) ∧
      (∀ d d' s, Joins g₀ moves d d' s → d.reason? = none → s.error.any RunError.isFailure = true → s = r) ∧
      g.join.cancelledBy = some r.name ∧ g.reason? = some (Join.failureReason r.name) ∧
      g.told = if g₀.hook then [r.name] else [] := by
  have hf := hj.fatal hs hr hr'
  obtain ⟨hfast, _, hfail⟩ := fatal_iff.1 hf
  cases h with
  | nobody spared => exact absurd hf (spared b b' r hj)
  | somebody _ _ only cancelledBy reason told =>
    obtain rfl := only b b' r hj hf
    exact ⟨hfail, hj.cancelled hs hf, fun d d' s hd hrd hfd => only d d' s hd (fatal_iff.2 ⟨hfast, hrd, hfd⟩),
      cancelledBy, reason, told⟩

theorem Blamed.of_spared (h : Blamed g₀ moves g) (hs : g₀.Scoped p c)
    (hspared : ∀ b b' r, Joins g₀ moves b b' r → b.reason? = none → b'.reason? = none) :
    g.join.cancelledBy = none ∧ g.told = [] := by
  cases h with
  | nobody _ cancelledBy _ told => exact ⟨cancelledBy, told⟩
  | @somebody b b' r joins fatal =>
    have hcancelled := joins.cancelled hs fatal
    rw [hspared b b' r joins (fatal_iff.1 fatal).2.1] at hcancelled
    cases hcancelled

theorem of_under {f : Forest} {parent : Nat} {failFast hook : Bool} (h : under f parent failFast hook = some g) :
    g.tasks = [] ∧ g.join = {} ∧ g.told = [] ∧ g.failFast = failFast ∧ g.hook = hook := by
  obtain ⟨_, _, rfl⟩ := Option.map_eq_some_iff.1 h
  exact ⟨rfl, rfl, rfl, rfl, rfl⟩

end TaskGroup

namespace Drain

open TaskGroup

variable {α : Type} {g₀ : TaskGroup α} {moves : List (DrainMove α)} {d : Drain α} {p : Nat}

/-- Every group under a scope that operations from the start lead to, whatever is done with it and with all
scopes while its owner looks at the tasks: what they report, in which order, which error follows, and by which
task the group is cancelled. -/
theorem join_outcome {ops : List ScopeOp} {f : Forest} {parent : Nat} {failFast hook : Bool}
    (hf : Forest.empty.run ops = some f) (hp : f.scopeOf? parent = some p)
    (hu : TaskGroup.under f parent failFast hook = some g₀) (h : (start g₀).run moves = some d) :
    let ms := (start g₀).groupMoves moves
    let g := d.group
    let late := (start g₀).putOffIn moves
    -- when no task is at work any more the owner joins them all by looking alone
    (g.dropped = false → (∀ t ∈ g.tasks, t.state ≠ .running) →
        ∃ (looks : List (DrainMove α)) (d' : Drain α), (∀ m, .group m ∉ looks) ∧ d.run looks = some d' ∧
          ∀ t ∈ d'.group.tasks, t.state = .joined) ∧
      -- the reports are in the order of the joins, and each tells how its task ended
      g.join.reports.map Report.index = joinedIn ms ∧
      (∀ r ∈ g.join.reports, (spawnedIn ms)[r.index]? = some r.name ∧
        ∃ how, (r.index, how) ∈ endedIn ms ∧ r = how.report r.index r.name) ∧
      -- first come the tasks that were over when the owner came to them, as they were spawned, and then those
      -- that were set aside, as they ended; nobody is put off in a group that each go can join
      (joinedIn ms ++ d.queue).filter (· ∉ late) =
        ((List.range (spawnedIn ms).length).filter (· ∉ d.aside) ++
          ((endedIn ms).map Prod.fst).filter (· ∈ d.aside)).filter (· ∉ late) ∧
      ((∀ left ∈ goesIn moves, (spawnedIn ms).length ≤ left) → late = []) ∧
      -- there is one for each task once all are joined
      ((∀ t ∈ g.tasks, t.state = .joined) → d.queue = [] ∧
        (g.join.reports.map Report.index).Perm (List.range (spawnedIn ms).length) ∧
          g.join.ordered.Perm g.join.reports ∧
          g.join.ordered.map Report.index = List.range (spawnedIn ms).length ∧
          g.join.ordered.map Report.name = spawnedIn ms) ∧
      -- and they are in the order of the ends if the owner came to every task before its end
      ((∀ t ∈ g.tasks, t.state = .joined) → (∀ i < (spawnedIn ms).length, i ∈ d.aside) → late = [] →
        g.join.reports.map some =
          (endedIn ms).map fun (i, how) => (spawnedIn ms)[i]?.map fun name => how.report i name) ∧
      -- the error is the first failure, or else the first cancellation
      (g.join.error = none ↔ ∀ r ∈ g.join.reports, r.error = none) ∧
      g.join.error = ((g.join.reports.filterMap Report.error).find? RunError.isFailure).or
        (g.join.reports.filterMap Report.error).head? ∧
      -- a join leaves the scope above alone
      (∀ b b' r, Joins g₀ ms b b' r → b'.forest.scopes[p]? = b.forest.scopes[p]?) ∧
      -- a join cancels the live scope of the group where it fails fast, and then it is the only one
      ((∃ b b' r, Joins g₀ ms b b' r ∧ b.reason? = none ∧ b'.reason? ≠ none) ↔ failFast = true ∧
        ∃ b b' r, Joins g₀ ms b b' r ∧ b.reason? = none ∧ r.error.any RunError.isFailure = true) ∧
      (∀ b b' r, Joins g₀ ms b b' r → b.reason? = none → b'.reason? ≠ none →
        r.error.any RunError.isFailure = true ∧ b'.reason? = some (Join.failureReason r.name) ∧
          (∀ d d' s, Joins g₀ ms d d' s → d.reason? = none → s.error.any RunError.isFailure = true → s = r) ∧
          g.join.cancelledBy = some r.name ∧ g.reason? = some (Join.failureReason r.name) ∧
          g.told = if hook then [r.name] else []) ∧
      ((∀ b b' r, Joins g₀ ms b b' r → b.reason? = none → b'.reason? = none) →
        g.join.cancelledBy = none ∧ g.told = []) := by
  intro ms g late
  have hs := scoped_of_under (Forest.Sound.empty.run hf) hp hu
  obtain ⟨htasks, hj₀, htold₀, rfl, rfl⟩ := of_under hu
  have hrun : g₀.run ms = some g := run_groupMoves h
  obtain ⟨haccount, hstanding, hordered⟩ := known htasks hj₀ h
  have hblame := Blamed.run hs hj₀ htold₀ hrun
  have hlength : g.tasks.length = (spawnedIn ms).length := by rw [← haccount.names, List.length_map]
  have horder := hordered.order
  rw [due, hlength] at horder
  refine ⟨fun hd hidle => exists_looks hstanding hd (haccount.whole hd) hidle, haccount.joined, fun r hr =>
    ⟨haccount.name_eq hr, (haccount.reports r hr).2⟩, horder, fun hle => ?_, fun hall =>
    ⟨hstanding.queue_eq_nil hall, haccount.perm hall, List.mergeSort_perm _ _, haccount.ordered_index hall,
      haccount.ordered_name hall⟩,
    fun hall haside hlate => haccount.reports_eq ?_, ?_, ?_, fun b b' r hj => ?_, exists_cancelling_iff hs,
    fun b b' r hj hr hr' => hblame.of_cancelling hs hj hr hr', hblame.of_spared hs⟩
  · by_contra hlate
    obtain ⟨left, hleft, hlt⟩ := hordered.few hlate
    exact Nat.not_lt_of_le (hle left hleft) (hlength ▸ hlt)
  · exact hordered.joined_eq haccount (hstanding.queue_eq_nil hall) (by rw [hlength]; exact haside) hlate
  · rw [haccount.error, Join.foldl_firstError_eq_none, List.forall_mem_map]
  · rw [haccount.error, Join.foldl_firstError, List.filterMap_map]
    rfl
  · obtain ⟨before, hb⟩ := hj.reached
    rw [hj.eq_joinReport, (hs.run hb).parent_joinReport]

/-- Three tasks of a group that fails fast, all of them at work when the owner comes to them: a success and a
cancellation are joined before a failure. -/
def mixedMoves : List (DrainMove Nat) :=
  [.group (.spawn "a"), .group (.spawn "b"), .group (.spawn "c"), .look, .look, .look,
    .group (.finish 1 (.returned 7 none)), .look, .group (.finish 2 (.returned 0 (some (.cancelled "c" "no")))),
    .look, .group (.finish 0 (.broke "it broke down")), .look]

theorem join_outcome_mixed : ∃ (g₀ : TaskGroup Nat) (d : Drain Nat), (start g₀).run mixedMoves = some d ∧
    d.group.join.ordered.map Report.name = ["a", "b", "c"] ∧ d.group.join.reports.map Report.index = [1, 2, 0] ∧
      d.group.join.cancelledBy = some "a" ∧ d.group.reason? = some "'a' failed" ∧ d.group.told = ["a"] := by
  have hrun : (Forest.empty.run [.new]).bind (fun f => (under f 0 true true).bind fun g₀ : TaskGroup Nat =>
      ((start g₀).run mixedMoves).bind fun d =>
        (g₀.run (((start g₀).groupMoves mixedMoves).take 8)).bind fun b => (b.step (.join 0)).map fun _ =>
          (f.scopeOf? 0, d.group.tasks.map GroupTask.state, d.aside, (start g₀).groupMoves mixedMoves, b.tasks[0]?,
            b.reason?)) =
      some (some 0, [.joined, .joined, .joined], [0, 1, 2],
        [.spawn "a", .spawn "b", .spawn "c", .finish 1 (.returned 7 none), .join 1,
          .finish 2 (.returned 0 (some (.cancelled "c" "no"))), .join 2, .finish 0 (.broke "it broke down"), .join 0],
        some ⟨"a", .ended (.broke "it broke down")⟩, none) := by
    rfl
  obtain ⟨f, hf, e⟩ := Option.bind_eq_some_iff.1 hrun
  obtain ⟨g₀, hu, e⟩ := Option.bind_eq_some_iff.1 e
  obtain ⟨d, hd, e⟩ := Option.bind_eq_some_iff.1 e
  obtain ⟨b, hb, e⟩ := Option.bind_eq_some_iff.1 e
  obtain ⟨b', hb', e⟩ := Option.map_eq_some_iff.1 e
  simp only [Prod.mk.injEq] at e
  obtain ⟨hp, hstates, haside, hmoves, htask, hr⟩ := e
  obtain ⟨_, _, _, _, hfew, hcomplete, hends, _, _, _, hfast, hcancelled, _⟩ := join_outcome hf hp hu hd
  have hall : ∀ t ∈ d.group.tasks, t.state = .joined := fun t ht => by
    have hm : t.state ∈ d.group.tasks.map GroupTask.state := List.mem_map_of_mem ht
    rw [hstates] at hm
    simpa using hm
  -- the breakdown is joined under a live scope, so that it is the one that cancels the group
  have hsplit : (start g₀).groupMoves mixedMoves = ((start g₀).groupMoves mixedMoves).take 8 ++ [.join 0] := by
    rw [hmoves]
    rfl
  have hjoins := Joins.intro hsplit hb htask hb'
  obtain ⟨c, c', r, hj, hc, hc'⟩ := hfast.2 ⟨rfl, _, _, _, hjoins, hr, rfl⟩
  obtain ⟨_, _, honly, hby, hreason, htold⟩ := hcancelled c c' r hj hc hc'
  obtain rfl := honly _ _ _ hjoins hr rfl
  have hreports : d.group.join.reports.map some = List.map some [⟨1, "b", some 7, none⟩,
      ⟨2, "c", some 0, some (.cancelled "c" "no")⟩,
      ⟨0, "a", none, some (.internal "Task 'a' did not complete: it broke down")⟩] := by
    rw [hends hall (by rw [hmoves, haside]; decide) (hfew (by rw [hmoves]; decide)), hmoves]
    rfl
  refine ⟨g₀, d, hd, ?_, ?_, hby, hreason, htold⟩
  · rw [(hcomplete hall).2.2.2.2, hmoves]
    rfl
  · rw [List.map_injective_iff.2 (fun _ _ => Option.some.inj) hreports]
    rfl

/-- Two tasks that both fail, the second one first, before the owner comes to them. -/
def earlyMoves : List (DrainMove Nat) :=
  [.group (.spawn "a"), .group (.spawn "b"), .group (.finish 1 (.returned 0 (some (.internal "b failed")))),
    .group (.finish 0 (.returned 0 (some (.internal "a failed")))), .look, .look]

/-- Tasks that are over before the owner comes to them are not joined as they ended, and the error of the group
is not the one that came first. -/
theorem joined_as_spawned : ∃ (g₀ : TaskGroup Nat) (d : Drain Nat),
    (Forest.empty.run [.new]).bind (fun f => under f 0 false) = some g₀ ∧ (start g₀).run earlyMoves = some d ∧
      (∀ t ∈ d.group.tasks, t.state = .joined) ∧
      (endedIn ((start g₀).groupMoves earlyMoves)).map Prod.fst = [1, 0] ∧
      d.group.join.reports.map Report.index = [0, 1] ∧ d.group.join.error = some (.internal "a failed") := by
  have hrun : ((Forest.empty.run [.new]).bind fun f => under f 0 false).bind (fun g₀ : TaskGroup Nat =>
      ((start g₀).run earlyMoves).map fun d => (d.group.tasks.map GroupTask.state,
        (endedIn ((start g₀).groupMoves earlyMoves)).map Prod.fst, d.group.join.reports.map Report.index,
        d.group.join.error)) = some ([.joined, .joined], [1, 0], [0, 1], some (.internal "a failed")) := by
    rfl
  obtain ⟨g₀, hu, e⟩ := Option.bind_eq_some_iff.1 hrun
  obtain ⟨d, hd, e⟩ := Option.map_eq_some_iff.1 e
  simp only [Prod.mk.injEq] at e
  obtain ⟨hstates, hended, hindex, herror⟩ := e
  refine ⟨g₀, d, hu, hd, fun t ht => ?_, hended, hindex, herror⟩
  have hm : t.state ∈ d.group.tasks.map GroupTask.state := List.mem_map_of_mem ht
  rw [hstates] at hm
  simpa using hm

end Drain

end StageTree
