import StageTree.Proofs.Activity.Blame
import StageTree.Proofs.Activity.Marks

/-! Trees that go down. Where every group fails fast, a unit that fails takes the tree around it down with
it: some stage can always go on at once, until the root has ended with a failure. No time passes
meanwhile. -/

namespace StageTree

def Entry.failure? (e : Entry) : Option RunError :=
  match e.what with
  | .returned (.error error) => if error.isCancellation then none else some error
  | _ => none

theorem Entry.mark?_eq_failure {e : Entry} {q : List String} {ms : Nat} {error : RunError} :
    e.mark? = some (.failure q ms error) ↔ e.path = q ∧ e.ms = ms ∧ e.failure? = some error := by
  obtain ⟨ms', path, what⟩ := e
  cases what with
  | returned result =>
    cases result with
    | ok lines => simp [failure?, mark?]
    | error error' => by_cases h : error'.isCancellation <;> simp [failure?, mark?, h]
  | _ => simp [failure?, mark?]

namespace Activity

variable {W U : Type}

/-- A tree that goes down: its root failed, its group is cancelled, or a branch of its group goes down. -/
inductive Doomed : Activity U → Prop
  | failed {a : Activity U} (h : a.hasFailed = true) : Doomed a
  | cancelled {a : Activity U} (hp : a.phase = .fanned) (hs : a.isScopeCancelled = true) : Doomed a
  | branch {a b : Activity U} (hp : a.phase = .fanned) (hb : b ∈ a.branches) (h : Doomed b) : Doomed a

theorem Doomed.hasFailed {a : Activity U} (h : a.Doomed) (he : a.hasEnded = true) : a.hasFailed = true := by
  cases h with
  | failed h => exact h
  | cancelled hp | branch hp => simp [hasEnded, hp] at he

/-- A stage of a tree that goes down can do something at once, until the root has ended. -/
theorem Doomed.able {due : U → Option Nat} {now : Nat} {scope : Option String} {a : Activity U}
    (h : a.Doomed) (ha : a.Sound) (hc : a.Closed) (hal : a.Alert) (hb : a.stage.Brittle)
    (hn : a.hasEnded = false) : ∃ position x, Able due now scope a position x := by
  induction h generalizing scope with
  | failed h =>
    rw [hasEnded_of_hasFailed h] at hn
    cases hn
  | cancelled hp hs => exact able_of_isScopeCancelled ha hc hp hs
  | @branch a b hp hm h ih =>
    obtain ⟨f, hf⟩ := Option.ne_none_iff_exists'.1 (ha.here.fanned hp)
    obtain ⟨i, hi⟩ := List.mem_iff_getElem?.1 hm
    have hbb : b.stage.Brittle := ha.here.branch_stage hb hm
    cases he : b.hasEnded with
    | false =>
      obtain ⟨position, x, h⟩ : ∃ position x, Able due now f.scope b position x :=
        ih (ha.branch hm) (hc.branch hm) (hal.branch hm) hbb he
      exact ⟨i :: position, x, .branch hp hf hi h⟩
    | true =>
      cases hs : f.scope with
      | some reason =>
        refine able_of_isScopeCancelled ha hc hp ?_
        rw [isScopeCancelled_of_fan hf, hs]
        rfl
      | none =>
        -- a live group that fails fast has not joined a branch that failed
        refine ⟨[], .join i, .join hp hf hi he ?_⟩
        by_contra hj
        have hff := hb.here (by rw [ha.here.grouped f hf]; rfl)
        have hr := (ha.here.report_of_hasJoined hf hi (by simpa using hj)).2
        have habsurd : true = false := (h.hasFailed he).symm.trans (hal.here hff f hf hs _ hr)
        cases habsurd

/-- Only a stage that failed leaves the failure of a unit. -/
theorem hasFailed_of_mem_held {a : Activity U} {path q : List String} {ms : Nat} {e : RunError}
    (h : Mark.failure q ms e ∈ a.held path) : a.hasFailed = true := by
  cases he : a.hasEnded with
  | false =>
    rw [held_eq_nil he] at h
    cases h
  | true =>
    obtain ⟨ms', lines, error, hp⟩ := hasEnded_iff.1 he
    rw [held_of_phase hp] at h
    rw [hasFailed, error?_of_phase hp]
    cases lines with
    | some lines => simp [unitMark] at h
    | none =>
      cases error with
      | none => simp [unitMark] at h
      | some e' =>
        by_cases hc : e'.isCancellation = true
        · simp [unitMark, hc] at h
        · simpa [RunError.isFailure] using hc

section Steps

variable {s : Setting W U} {m : Moment} {w : W} {a : Activity U} {x : Act} {p : Played W U}

/-- A group that knows of a failure has an error. -/
theorem Blamed.error_ne_none (h : a.Blamed) {f : Fan} (hf : a.fan = some f)
    (hfaith : f.Faithful a.branches) (hl : f.join.reports.length = a.branches.length)
    (hd : a.isScopeCancelled = true ∨ ∃ b ∈ a.branches, b.hasFailed = true) : f.join.error ≠ none := by
  obtain ⟨r, hr, hfail⟩ : ∃ r ∈ f.join.reports, r.error.any RunError.isFailure = true := by
    rcases hd with hs | ⟨b, hb, hfail⟩
    · exact (h.scope f hf (isScopeCancelled_of_fan hf ▸ hs)).2
    · obtain ⟨i, hi⟩ := List.mem_iff_getElem?.1 hb
      exact ⟨_, (hfaith.mem_of_length hl hi).2, hfail⟩
  obtain ⟨e, he, hfe⟩ := (Option.any_eq_true _ _).1 hfail
  rw [hfaith.error_eq, Join.foldl_firstError]
  intro hnone
  have hmem : e ∈ (f.join.reports.map Report.error).filterMap id :=
    List.mem_filterMap.2 ⟨some e, List.mem_map.2 ⟨r, hr, he⟩, rfl⟩
  exact List.find?_eq_none.1 (Option.or_eq_none_iff.1 hnone).1 e hmem hfe

/-- A tree that goes down is one with a cancelled group after it joined a branch, or the branch that goes
down is still there. -/
theorem Doomed.joining (h : a.Doomed) (hp : a.phase = .fanned) {f : Fan} (hf : a.fan = some f)
    (r : Report Results) : (f.joining a.stage.failsFast r).scope.isSome = true ∨
      ∃ b ∈ a.joiningBranches f r, b.Doomed := by
  by_cases hc : Join.cancels a.stage.failsFast f.scope r = true
  · exact .inl (by simp [Fan.joining, hc])
  · simp only [Fan.joining, joiningBranches, hc, Bool.false_eq_true, if_false]
    cases h with
    | failed h =>
      obtain ⟨_, _, _, he⟩ := hasEnded_iff.1 (hasEnded_of_hasFailed h)
      simp [hp] at he
    | cancelled _ hs => exact .inl (isScopeCancelled_of_fan hf ▸ hs)
    | branch _ hb h => exact .inr ⟨_, hb, h⟩

theorem Acted.doomed (h : Acted s m w a x p) (hr : s.runner.Honest) (hm : m.scope = none) (ha : a.Sound)
    (hb : a.Blamed) (hd : a.Doomed) : p.activity.Doomed := by
  have hbp := h.blamed hr hm ha.here hb
  have hsp := h.sound ha
  have hfanned : a.phase = .fanned := by
    cases hd with
    | failed hd =>
      have hn := h.not_hasEnded
      rw [hasEnded_of_hasFailed hd] at hn
      cases hn
    | cancelled hp _ => exact hp
    | branch hp _ _ => exact hp
  cases h with
  | refused hp | fanned hp | begun hp | looked hp => simp [hfanned] at hp
  | joined hp hf hbi he hj hl =>
    rcases hd.joining hp hf (Activity.report _ _ _) with hs | ⟨c, hc, hd⟩
    · exact .cancelled hp ((isScopeCancelled_of_fan rfl).trans hs)
    · exact .branch hp hc hd
  | failed hp hf hbi he hj hl hr' =>
    refine .failed ?_
    simpa [hasFailed, isCancelled, error?, RunError.isFailure] using hbp.here
  | gathered hp hf hbi he hj hl hr' ho =>
    -- a group that knows of a failure does not go on to the unit
    have hlen := hsp.here.length_eq rfl ho.phase_ne
    refine absurd hr' (hbp.error_ne_none rfl (hsp.here.faithful _ rfl) hlen ?_)
    rcases hd.joining hp hf (Activity.report _ _ _) with hs | ⟨c, hc, hd⟩
    · exact .inl ((isScopeCancelled_of_fan rfl).trans hs)
    · obtain ⟨i, hi⟩ := List.mem_iff_getElem?.1 hc
      exact .inr ⟨c, hc, hd.hasFailed (hsp.here.ended rfl ho.phase_ne hi).1⟩

/-- A tree that goes down is not saved by any step. -/
theorem Stepped.doomed (h : Stepped s x a m w p) (hr : s.runner.Honest) (hm : m.scope = none)
    (ha : a.Sound) (hb : a.Blamed) (hd : a.Doomed) : p.activity.Doomed := by
  induction h with
  | here h => exact h.doomed hr hm ha hb hd
  | @branch a b m w p f i hp hf hbi h ih =>
    cases hs : f.scope with
    | some reason => exact .cancelled hp ((isScopeCancelled_of_fan hf).trans (by rw [hs]; rfl))
    | none =>
      cases hd with
      | failed hd =>
        obtain ⟨_, _, _, he⟩ := hasEnded_iff.1 (hasEnded_of_hasFailed hd)
        simp [hp] at he
      | cancelled _ hsc => exact .cancelled hp hsc
      | branch _ hc hd =>
        obtain ⟨j, hj⟩ := List.mem_iff_getElem?.1 hc
        by_cases hji : j = i
        · subst hji
          obtain rfl := Option.some.inj (hbi.symm.trans hj)
          exact .branch hp (List.mem_set (List.getElem?_eq_some_iff.1 hbi).1 _)
            (ih hs (ha.branch hc) (hb.branches j _ hbi (not_excused hf hs j)) hd)
        · refine .branch hp (List.mem_of_getElem? (i := j) ?_) hd
          rw [List.getElem?_set_ne (Ne.symm hji), hj]

/-- The unit that fails in a step takes the tree down. -/
theorem Stepped.doomed_of_failure (h : Stepped s x a m w p) (ha : a.Sound) {e : Entry} (he : e ∈ p.trace)
    {error : RunError} (hf : e.failure? = some error) : p.activity.Doomed := by
  induction h with
  | @here a m w p h =>
    have hmark : Mark.failure e.path e.ms error ∈ p.activity.held m.path := by
      rw [← h.held_eq ha.here]
      exact List.mem_filterMap.2 ⟨e, he, Entry.mark?_eq_failure.2 ⟨rfl, rfl, hf⟩⟩
    exact .failed (hasFailed_of_mem_held hmark)
  | @branch a b m w p f i hp hf hbi h ih =>
    exact .branch hp (List.mem_set (List.getElem?_eq_some_iff.1 hbi).1 _)
      (ih (ha.branch (List.mem_of_getElem? hbi)) he)

end Steps

/-- A stage that ended with a failure has the failure from a unit of its tree. -/
theorem Sound.exists_failure {a : Activity U} (ha : a.Sound) {e : RunError} (he : a.error? = some e)
    (hf : e.isFailure = true) (path : List String) : ∃ q ms, Mark.failure q ms e ∈ a.marks path := by
  induction ha generalizing path with
  | @mk a here below ih =>
    obtain ⟨ms, lines, error, hp⟩ := hasEnded_iff.1 (hasEnded_of_error? he)
    obtain rfl : error = some e := (error?_of_phase hp).symm.trans he
    have hlines : lines = none := by
      have hfits := here.fits
      rw [hp] at hfits
      cases hfits
      rfl
    rw [marks_eq, held_of_phase hp, hlines]
    cases hg : a.fan.bind fun f => f.join.error with
    | none =>
      refine ⟨path, ms, List.mem_append_left _ ?_⟩
      have hc : e.isCancellation = false := by simpa [RunError.isFailure] using hf
      simp [unitMark, hc]
    | some e' =>
      -- the error is that of a branch
      obtain ⟨f, hfan, hje⟩ := Option.bind_eq_some_iff.1 hg
      obtain rfl : e' = e := by
        rcases here.error f e' hfan hje with hp' | ⟨_, hp'⟩ <;> rw [hp] at hp'
        · cases hp'
        · simpa using (Phase.ended.inj hp').2.2.symm
      have hfaith := here.faithful f hfan
      rw [hfaith.error_eq] at hje
      obtain ⟨r, hr, hre⟩ := List.mem_map.1 (Join.mem_of_foldl_firstError hje)
      obtain ⟨b, hb, _, e⟩ := hfaith.report r hr
      have hbe : b.error? = some e' := by
        rw [e] at hre
        exact hre
      obtain ⟨q, ms', hm⟩ := ih b (List.mem_of_getElem? hb) hbe (path ++ [b.stage.name])
      exact ⟨q, ms', List.mem_append_right _ (List.mem_flatMap.2 ⟨b, List.mem_of_getElem? hb, hm⟩)⟩

end Activity

end StageTree
