import StageTree.Proofs.Activity.Ready

/-! The scopes of a tree. Below a group that is cancelled every group at work is, and so every stage that
has not ended can go on at once. A group that fails fast and is not cancelled has joined no failure. -/

namespace StageTree.Activity

variable {W U : Type}

def isScopeCancelled (a : Activity U) : Bool := a.fan.any fun f => f.scope.isSome

/-- A tree in which every group at work is cancelled. -/
inductive Quenched : Activity U → Prop
  | mk {a : Activity U} (here : a.phase = .fanned → a.isScopeCancelled = true)
      (branches : a.phase = .fanned → ∀ b ∈ a.branches, Quenched b) : Quenched a

namespace Quenched

variable {a : Activity U}

theorem here : Quenched a → a.phase = .fanned → a.isScopeCancelled = true
  | mk h _ => h

theorem branch {b : Activity U} : Quenched a → a.phase = .fanned → b ∈ a.branches → Quenched b
  | mk _ h, hp, hb => h hp b hb

theorem of_phase (h : a.phase ≠ .fanned) : Quenched a := .mk (fun e => absurd e h) fun e => absurd e h

end Quenched

/-- A tree in which every group at work below a cancelled one is cancelled. -/
abbrev Closed : Activity U → Prop :=
  Everywhere fun a => a.isScopeCancelled = true → ∀ b ∈ a.branches, b.Quenched

theorem isScopeCancelled_of_fan {a : Activity U} {f : Fan} (hf : a.fan = some f) :
    a.isScopeCancelled = f.scope.isSome := by
  rw [isScopeCancelled, hf, Option.any_some]

theorem closed_ofStage (s : Stage) : (ofStage s : Activity U).Closed :=
  .mk (fun h => by simp [isScopeCancelled, ofStage] at h) (by simp [ofStage])

/-- A cancellation gets to every group at work. -/
theorem Closed.quenched_cancel {a : Activity U} (h : a.Closed) (hs : a.Sound) (reason : String) :
    (a.cancel reason).Quenched := by
  induction h with
  | @mk a here below ih =>
    by_cases hp : a.phase = .fanned
    · obtain ⟨⟨scope, join⟩, hf⟩ := Option.ne_none_iff_exists'.1 (hs.here.fanned hp)
      cases scope with
      | none =>
        rw [cancel_fanned reason hp hf]
        refine .mk (fun _ => by simp [isScopeCancelled]) fun _ b hb => ?_
        obtain ⟨c, hc, rfl⟩ := List.mem_map.1 hb
        exact ih c hc (hs.branch hc)
      | some r =>
        have hsc : a.isScopeCancelled = true := by rw [isScopeCancelled_of_fan hf]; rfl
        rw [cancel_of_ne reason fun _ join' e => by simp [hf] at e]
        exact .mk (fun _ => hsc) fun _ b hb => here hsc b hb
    · exact .of_phase (by simpa using hp)

theorem Closed.cancel {a : Activity U} (h : a.Closed) (hs : a.Sound) (reason : String) :
    (a.cancel reason).Closed := by
  induction h with
  | @mk a here below ih =>
    rcases a.cancel_cases reason with e | ⟨join, hp, hf, e⟩
    · rw [e]
      exact .mk here below
    · rw [e]
      refine .mk (fun _ b hb => ?_) fun b hb => ?_
      all_goals obtain ⟨c, hc, rfl⟩ := List.mem_map.1 hb
      · exact Closed.quenched_cancel (below c hc) (hs.branch hc) reason
      · exact ih c hc (hs.branch hc)

section Steps

variable {s : Setting W U} {m : Moment} {w : W} {a : Activity U} {x : Act} {p : Played W U}

theorem Onward.phase_ne {stage : Stage} {since : Nat} {phase : Phase U} {w' : W} {trace : List Entry}
    (h : Onward s m stage since w phase w' trace) : phase ≠ .fanned := h.fits.2.2

/-- A cancelled group that joins a branch stays cancelled, and so does a group that is not to be. -/
theorem joining_of_isSome {f : Fan} (hs : f.scope.isSome = true) (failFast : Bool) (r : Report Results) :
    (f.joining failFast r).scope = f.scope ∧ a.joiningBranches f r = a.branches := by
  have hc (failFast : Bool) : ¬ Join.cancels failFast f.scope r = true := fun h => by
    rw [(Join.cancels_iff.1 h).2.1] at hs
    cases hs
  simp [Fan.joining, joiningBranches, hc]

/-- Under a cancelled scope no group is entered. -/
theorem Acted.quenched (h : Acted s m w a x p) (hm : m.scope.isSome = true) (hq : a.Quenched) :
    p.activity.Quenched := by
  cases h with
  | refused => exact .of_phase (by simp)
  | fanned hp hs | begun hp hs => simp [hs] at hm
  | looked hp ht =>
    refine .of_phase ?_
    generalize s.runner.look _ m.look w = turn at ht
    cases ht <;> simp
  | joined hp hf hb he hj hl =>
    have hs : _ = true := (isScopeCancelled_of_fan hf) ▸ hq.here hp
    obtain ⟨hscope, hbranches⟩ := joining_of_isSome (a := a) hs a.stage.failsFast (Activity.report _ _ _)
    refine .mk (fun _ => ?_) fun _ b hb => ?_
    · rw [isScopeCancelled, Option.any_some, hscope]
      exact hs
    · rw [hbranches] at hb
      exact hq.branch hp hb
  | failed => exact .of_phase (by simp)
  | gathered hp hf hb he hj hl hr ho => exact .of_phase ho.phase_ne

theorem Stepped.quenched (h : Stepped s x a m w p) (hm : m.scope.isSome = true) (hq : a.Quenched) :
    p.activity.Quenched := by
  induction h with
  | here h => exact h.quenched hm hq
  | @branch a b m w p f i hp hf hb h ih =>
    have hs : f.scope.isSome = true := (isScopeCancelled_of_fan hf) ▸ hq.here hp
    refine .mk (fun _ => hq.here hp) fun _ c hc => ?_
    rcases List.mem_or_eq_of_mem_set hc with hc | rfl
    · exact hq.branch hp hc
    · exact ih hs (hq.branch hp (List.mem_of_getElem? hb))

theorem Acted.closed (h : Acted s m w a x p) (ha : a.Sound) (hc : a.Closed) : p.activity.Closed := by
  have joining {i : Nat} {f : Fan} {b : Activity U} {error : Option RunError} {phase : Phase U}
      (hf : a.fan = some f) : Closed { a with
        phase := phase
        fan := some (f.joining a.stage.failsFast (b.report i error))
        branches := a.joiningBranches f (b.report i error) } := by
    by_cases hcc : Join.cancels a.stage.failsFast f.scope (b.report i error) = true
    · have e : a.joiningBranches f (b.report i error) =
          a.branches.map (Activity.cancel (Join.failureReason (b.report i error).name)) := by
        simp [joiningBranches, hcc]
      rw [e]
      refine .mk (fun _ c hcm => ?_) fun c hcm => ?_
      all_goals obtain ⟨d, hd, rfl⟩ := List.mem_map.1 hcm
      · exact Closed.quenched_cancel (hc.branch hd) (ha.branch hd) _
      · exact Closed.cancel (hc.branch hd) (ha.branch hd) _
    · have e : a.joiningBranches f (b.report i error) = a.branches := by simp [joiningBranches, hcc]
      have hscope : (f.joining a.stage.failsFast (b.report i error)).scope = f.scope := by
        simp [Fan.joining, hcc]
      rw [e]
      refine .mk (fun hs c hcm => hc.here ?_ c hcm) fun c hcm => hc.branch hcm
      rw [isScopeCancelled, Option.any_some, hscope] at hs
      rwa [isScopeCancelled_of_fan hf]
  cases h with
  | refused | begun | looked => exact .mk hc.here fun b hb => hc.branch hb
  | fanned hp hs hg hne =>
    refine .mk (fun h => by simp [isScopeCancelled] at h) fun b hb => ?_
    obtain ⟨st, _, rfl⟩ := List.mem_map.1 hb
    exact closed_ofStage st
  | joined hp hf hb he hj hl => exact joining hf
  | failed hp hf hb he hj hl hr => exact joining hf
  | gathered hp hf hb he hj hl hr ho => exact joining hf

/-- A step leaves a tree in which cancelled groups are cancelled all the way down. -/
theorem Stepped.closed (h : Stepped s x a m w p) (ha : a.Sound) (hc : a.Closed) : p.activity.Closed := by
  induction h with
  | here h => exact h.closed ha hc
  | @branch a b m w p f i hp hf hb h ih =>
    have hmem := List.mem_of_getElem? hb
    refine .mk (fun hs c hcm => ?_) fun c hcm => ?_
    all_goals rcases List.mem_or_eq_of_mem_set hcm with hcm | rfl
    · exact hc.here hs c hcm
    · refine h.quenched ?_ (hc.here hs b hmem)
      rw [isScopeCancelled, hf, Option.any_some] at hs
      exact hs
    · exact hc.branch hcm
    · exact ih (ha.branch hmem) (hc.branch hmem)

end Steps

/-- Under a cancelled scope a stage that has not ended can do something at once, itself or below. -/
theorem Quenched.able {due : U → Option Nat} {now : Nat} {scope : Option String} {a : Activity U}
    (hq : a.Quenched) (ha : a.Sound) (hs : scope.isSome = true) (hn : a.hasEnded = false) :
    ∃ position x, Able due now scope a position x := by
  induction ha generalizing scope with
  | @mk a here below ih =>
    cases hp : a.phase with
    | waiting => exact ⟨[], .start, .start hp⟩
    | working u => exact ⟨[], .look, .look hp (.inl hs)⟩
    | ended ms lines error =>
      rw [hasEnded_of_phase hp] at hn
      cases hn
    | fanned =>
      obtain ⟨f, hf⟩ := Option.ne_none_iff_exists'.1 (here.fanned hp)
      have hfs : f.scope.isSome = true := (isScopeCancelled_of_fan hf) ▸ hq.here hp
      rcases here.exists_open hp hf with ⟨i, b, hb, he, hj⟩ | ⟨i, b, hb, hbn⟩
      · exact ⟨[], .join i, .join hp hf hb he hj⟩
      · have hm := List.mem_of_getElem? hb
        obtain ⟨position, x, h⟩ := ih b hm (hq.branch hp hm) hfs hbn
        exact ⟨i :: position, x, .branch hp hf hb h⟩

/-- A group at work that is cancelled can do something at once, itself or below. -/
theorem able_of_isScopeCancelled {due : U → Option Nat} {now : Nat} {scope : Option String}
    {a : Activity U} (ha : a.Sound) (hc : a.Closed) (hp : a.phase = .fanned)
    (hs : a.isScopeCancelled = true) : ∃ position x, Able due now scope a position x := by
  obtain ⟨f, hf⟩ := Option.ne_none_iff_exists'.1 (ha.here.fanned hp)
  have hfs : f.scope.isSome = true := (isScopeCancelled_of_fan hf) ▸ hs
  rcases ha.here.exists_open hp hf with ⟨i, b, hb, he, hj⟩ | ⟨i, b, hb, hbn⟩
  · exact ⟨[], .join i, .join hp hf hb he hj⟩
  · have hm := List.mem_of_getElem? hb
    obtain ⟨position, x, h⟩ : ∃ position x, Able due now f.scope b position x :=
      (hc.here hs b hm).able (ha.branch hm) hfs hbn
    exact ⟨i :: position, x, .branch hp hf hb h⟩

/-! ### Groups that fail fast -/

/-- A tree in which no group that fails fast and is not cancelled has joined a failure. -/
abbrev Alert : Activity U → Prop :=
  Everywhere fun a => a.stage.failsFast = true → ∀ f, a.fan = some f → f.scope = none →
    ∀ r ∈ f.join.reports, r.error.any RunError.isFailure = false

theorem alert_ofStage (s : Stage) : (ofStage s : Activity U).Alert :=
  .mk (fun _ f hf => by simp [ofStage] at hf) (by simp [ofStage])

theorem Alert.cancel {a : Activity U} (h : a.Alert) (reason : String) : (a.cancel reason).Alert := by
  induction h with
  | @mk a here below ih =>
    rcases a.cancel_cases reason with e | ⟨join, hp, hf, e⟩
    · rw [e]
      exact .mk here below
    · rw [e]
      refine .mk (fun _ f hf hs => ?_) fun b hb => ?_
      · obtain rfl := Option.some.inj hf
        cases hs
      · obtain ⟨c, hc, rfl⟩ := List.mem_map.1 hb
        exact ih c hc

section Steps

variable {s : Setting W U} {m : Moment} {w : W} {a : Activity U} {x : Act} {p : Played W U}

theorem Acted.alert (h : Acted s m w a x p) (ha : a.Alert) : p.activity.Alert := by
  have joining {i : Nat} {f : Fan} {b : Activity U} {error : Option RunError} {phase : Phase U}
      (hf : a.fan = some f) : Alert { a with
        phase := phase
        fan := some (f.joining a.stage.failsFast (b.report i error))
        branches := a.joiningBranches f (b.report i error) } := by
    refine .mk (fun hff g hg hs r hr => ?_) fun c hc => ?_
    · obtain rfl := Option.some.inj hg
      have hcc : ¬ Join.cancels a.stage.failsFast f.scope (b.report i error) = true := fun hcc => by
        simp [Fan.joining, hcc] at hs
      have hscope : f.scope = none := by simpa [Fan.joining, hcc] using hs
      rcases List.mem_append.1 hr with hr | hr
      · exact ha.here hff f hf hscope r hr
      · obtain rfl := List.mem_singleton.1 hr
        by_contra hfail
        exact hcc (Join.cancels_iff.2 ⟨hff, hscope, by simpa using hfail⟩)
    · rcases a.joiningBranches_eq f (b.report i error) with e | ⟨reason, e⟩ <;> rw [e] at hc
      · exact ha.branch hc
      · obtain ⟨d, hd, rfl⟩ := List.mem_map.1 hc
        exact Alert.cancel (ha.branch hd) reason
  cases h with
  | refused | begun | looked => exact .mk ha.here fun b hb => ha.branch hb
  | fanned hp hs hg hne =>
    refine .mk (fun _ f hf _ r hr => ?_) fun b hb => ?_
    · obtain rfl := Option.some.inj hf
      cases hr
    · obtain ⟨st, _, rfl⟩ := List.mem_map.1 hb
      exact alert_ofStage st
  | joined hp hf hb he hj hl => exact joining hf
  | failed hp hf hb he hj hl hr => exact joining hf
  | gathered hp hf hb he hj hl hr ho => exact joining hf

theorem Stepped.alert (h : Stepped s x a m w p) (ha : a.Alert) : p.activity.Alert := by
  induction h with
  | here h => exact h.alert ha
  | @branch a b m w p f i hp hf hb h ih =>
    refine .mk ha.here fun c hc => ?_
    rcases List.mem_or_eq_of_mem_set hc with hc | rfl
    · exact ha.branch hc
    · exact ih (ha.branch (List.mem_of_getElem? hb))

end Steps

end StageTree.Activity
