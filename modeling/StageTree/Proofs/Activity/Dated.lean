import StageTree.Proofs.Activity.Ready
import StageTree.Proofs.Activity.Predict

/-! Trees whose units follow scripts, at an instant. No unit at work was over before it, nothing ended
later, and a branch that is not joined has ended just now. -/

namespace StageTree

theorem Script.ofError_error? (s : Script) (unit : UnitOfWork) : Status.ofError (s.error? unit) = s.status := by
  rw [Script.error?, Script.status]
  cases s.failure <;> rfl

namespace Activity

variable {scriptOf : String → Script} {vars : Bindings} {m : Moment} {w : Journal} {since : Nat}
  {phase : Phase Asleep} {w' : Journal} {trace : List Entry}

theorem taken_finish {s : Script} {unit : UnitOfWork} {j : Journal}
    (h : Taken m since (s.finish unit j) phase w' trace) :
    phase = .ended m.now (s.lines? unit) (s.error? unit) := by
  rw [Script.finish] at h
  split at h
  · rename_i message e
    cases h
    simp [Script.lines?, Script.error?, e, UnitResult.error?, Except.toOption]
  · rename_i e
    cases h
    simp [Script.lines?, Script.error?, e, UnitResult.error?, Except.toOption]

/-- What becomes of a stage whose group is over, if its unit takes some time: it ends without one, or its unit
is cancelled, or at work. -/
theorem onward_cases {stage : Stage} (hl : stage.hasSteps = true → 0 < (scriptOf stage.name).delayMs)
    (h : Onward (.scripted scriptOf vars) m stage since w phase w' trace) :
    (stage.hasSteps = false ∧ phase = .ended m.now none none) ∨
      (stage.hasSteps = true ∧ ∃ reason, m.scope = some reason ∧
        phase = .ended m.now none (some (.cancelled stage.name reason))) ∨
      stage.hasSteps = true ∧ m.scope = none ∧ phase = .working
        ⟨.ofStage stage vars, scriptOf stage.name, waitEnd m.now (scriptOf stage.name).delayMs⟩ := by
  cases h with
  | idle h => exact .inl ⟨h, rfl⟩
  | unit h ht =>
    refine .inr ?_
    simp only [Runner.scripted, Script.start, Moment.look] at ht
    split at ht
    · rename_i reason e
      cases ht
      exact .inl ⟨h, reason, e, rfl⟩
    · rename_i e
      have hpos : ¬ (scriptOf stage.name).delayMs = 0 := Nat.ne_of_gt (hl h)
      simp only [UnitOfWork.ofStage, hpos, if_false] at ht
      cases ht
      exact .inr ⟨h, e, rfl⟩

/-- What becomes of a stage whose unit is looked at: the unit is cancelled, over, or still at work. -/
theorem taken_look {u : Asleep}
    (h : Taken m since ((Setting.scripted scriptOf vars).runner.look u m.look w) phase w' trace) :
    (∃ reason, m.scope = some reason ∧ phase = .ended m.now none (some (.cancelled u.unit.name reason))) ∨
      (m.scope = none ∧ u.wakes ≤ m.now ∧
        phase = .ended m.now (u.script.lines? u.unit) (u.script.error? u.unit)) ∨
      m.scope = none ∧ m.now < u.wakes ∧ phase = .working u := by
  simp only [Runner.scripted, Script.look, Moment.look] at h
  split at h
  · rename_i reason e
    cases h
    exact .inl ⟨reason, e, rfl⟩
  · rename_i e
    split at h
    · rename_i hw
      exact .inr (.inl ⟨e, hw, taken_finish h⟩)
    · rename_i hw
      cases h
      exact .inr (.inr ⟨e, Nat.lt_of_not_le hw, rfl⟩)

structure Current (scriptOf : String → Script) (vars : Bindings) (now : Nat) (a : Activity Asleep) : Prop where
  unit : ∀ u, a.phase = .working u → u.script = scriptOf a.stage.name ∧ u.unit = .ofStage a.stage vars
  wakes : ∀ u, a.phase = .working u → now ≤ u.wakes
  ended : ∀ ms lines error, a.phase = .ended ms lines error → ms ≤ now
  unjoined : a.phase = .fanned → ∀ f i b ms lines error, a.fan = some f → a.branches[i]? = some b →
    b.phase = .ended ms lines error → f.hasJoined i = false → ms = now

abbrev Dated (scriptOf : String → Script) (vars : Bindings) (now : Nat) : Activity Asleep → Prop :=
  Everywhere (Current scriptOf vars now)

theorem dated_ofStage (now : Nat) (s : Stage) : Dated scriptOf vars now (ofStage s) :=
  .mk ⟨fun _ h => by simp [ofStage] at h, fun _ h => by simp [ofStage] at h,
    fun _ _ _ h => by simp [ofStage] at h, fun h => by simp [ofStage] at h⟩ (by simp [ofStage])

theorem Dated.cancel {now : Nat} {a : Activity Asleep} (h : a.Dated scriptOf vars now) (reason : String) :
    (a.cancel reason).Dated scriptOf vars now := by
  induction h with
  | @mk a here below ih =>
    rcases a.cancel_cases reason with e | ⟨join, hp, hf, e⟩
    · rw [e]
      exact .mk here below
    · rw [e]
      refine .mk { here with unjoined := fun _ f i b ms lines error hf' hb he hj => ?_ } fun b hb => ?_
      · obtain rfl := Option.some.inj hf'
        rw [List.getElem?_map, Option.map_eq_some_iff] at hb
        obtain ⟨c, hc, rfl⟩ := hb
        exact here.unjoined hp _ i c ms lines error hf hc (by simpa using he) hj
      · obtain ⟨c, hc, rfl⟩ := List.mem_map.1 hb
        exact ih c hc

theorem current_of_ended {now : Nat} {a : Activity Asleep} {lines : Option (List String)}
    {error : Option RunError} (hp : a.phase = .ended now lines error) : Current scriptOf vars now a where
  unit u hu := by simp [hp] at hu
  wakes u hu := by simp [hp] at hu
  ended ms lines' error' he := Nat.le_of_eq (Phase.ended.inj (he.symm.trans hp)).1
  unjoined h := by simp [hp] at h

theorem current_of_working {now : Nat} {a : Activity Asleep} {u : Asleep} (hp : a.phase = .working u)
    (hs : u.script = scriptOf a.stage.name) (hu : u.unit = .ofStage a.stage vars) (hw : now ≤ u.wakes) :
    Current scriptOf vars now a where
  unit v hv := by
    obtain rfl := Phase.working.inj (hp.symm.trans hv)
    exact ⟨hs, hu⟩
  wakes v hv := Phase.working.inj (hp.symm.trans hv) ▸ hw
  ended ms lines error he := by simp [hp] at he
  unjoined h := by simp [hp] at h

section Steps

variable {a : Activity Asleep} {x : Act} {p : Played Journal Asleep}

theorem Onward.current {stage : Stage} (hl : stage.hasSteps = true → 0 < (scriptOf stage.name).delayMs)
    (h : Onward (.scripted scriptOf vars) m stage since w phase w' trace) (fan : Option Fan)
    (branches : List (Activity Asleep)) :
    Current scriptOf vars m.now ⟨stage, since, phase, fan, branches⟩ := by
  rcases onward_cases hl h with ⟨_, rfl⟩ | ⟨_, _, _, rfl⟩ | ⟨_, _, rfl⟩
  · exact current_of_ended rfl
  · exact current_of_ended rfl
  · exact current_of_working rfl rfl rfl (Nat.le_add_right _ _)

theorem Acted.current (h : Acted (.scripted scriptOf vars) m w a x p) (hl : a.stage.Lasting scriptOf)
    (ha : Current scriptOf vars m.now a) : Current scriptOf vars m.now p.activity := by
  cases h with
  | refused | failed => exact current_of_ended rfl
  | @fanned stages =>
    refine ⟨fun _ h => by simp at h, fun _ h => by simp at h, fun _ _ _ h => by simp at h, ?_⟩
    intro _ f i b ms lines error hf hb he
    obtain ⟨st, _, rfl⟩ := List.mem_map.1 (List.mem_of_getElem? hb)
    simp [ofStage] at he
  | begun hp hs hg ho => exact ho.current hl.here a.fan a.branches
  | @looked u phase w' trace hp ht =>
    rcases taken_look ht with ⟨_, _, rfl⟩ | ⟨_, _, rfl⟩ | ⟨_, hw, rfl⟩
    · exact current_of_ended rfl
    · exact current_of_ended rfl
    · obtain ⟨hs, hu⟩ := ha.unit u hp
      exact current_of_working rfl hs hu (Nat.le_of_lt hw)
  | @joined i ms f b lines error hp hf hb he hj hl' =>
    refine { ha with unjoined := fun _ g j c ms' lines' error' hg hc hce hcj => ?_ }
    obtain rfl := Option.some.inj hg
    have hcj' : f.hasJoined j = false := Fan.Faithful.hasJoined_of_joining hcj
    rcases a.joiningBranches_eq f (b.report i error) with e | ⟨reason, e⟩
    · have hc : a.branches[j]? = some c := e ▸ hc
      exact ha.unjoined hp f j c ms' lines' error' hf hc hce hcj'
    · have hc : (a.branches.map (Activity.cancel reason))[j]? = some c := e ▸ hc
      rw [List.getElem?_map, Option.map_eq_some_iff] at hc
      obtain ⟨d, hd, rfl⟩ := hc
      exact ha.unjoined hp f j d ms' lines' error' hf hd (by simpa using hce) hcj'
  | gathered hp hf hb he hj hl' hr ho => exact ho.current hl.here _ _

/-- A stage that ends in a step ends at its instant. -/
theorem Stepped.ms_of_phase (h : Stepped (.scripted scriptOf vars) x a m w p) (hl : a.stage.Lasting scriptOf)
    {ms : Nat} {lines : Option (List String)} {error : Option RunError}
    (hp : p.activity.phase = .ended ms lines error) : ms = m.now := by
  have onward {stage : Stage} {since : Nat} {w w' : Journal} {phase : Phase Asleep} {trace : List Entry}
      (hl : stage.Lasting scriptOf) (ho : Onward (.scripted scriptOf vars) m stage since w phase w' trace)
      (hp : phase = .ended ms lines error) : ms = m.now := by
    rcases onward_cases hl.here ho with ⟨_, rfl⟩ | ⟨_, _, _, rfl⟩ | ⟨_, _, rfl⟩
    · exact (Phase.ended.inj hp).1.symm
    · exact (Phase.ended.inj hp).1.symm
    · cases hp
  cases h with
  | here h =>
    cases h with
    | refused | failed => exact (Phase.ended.inj hp).1.symm
    | fanned => cases hp
    | begun _ _ _ ho => exact onward hl ho hp
    | looked _ ht =>
      rcases taken_look ht with ⟨_, _, rfl⟩ | ⟨_, _, rfl⟩ | ⟨_, _, rfl⟩
      · exact (Phase.ended.inj hp).1.symm
      · exact (Phase.ended.inj hp).1.symm
      · cases hp
    | joined hp' => simp [hp'] at hp
    | gathered _ _ _ _ _ _ _ ho => exact onward hl ho hp
  | branch hp' => simp [hp'] at hp

/-- A step leaves a tree at its instant. -/
theorem Stepped.dated (h : Stepped (.scripted scriptOf vars) x a m w p) (ha : a.Sound)
    (hl : a.stage.Lasting scriptOf) (hd : a.Dated scriptOf vars m.now) :
    p.activity.Dated scriptOf vars m.now := by
  induction h with
  | @here a m w p h =>
    refine .mk (h.current hl hd.here) fun b hb => ?_
    rcases h.mem_branches hb with hb | ⟨c, hc, reason, rfl⟩ | ⟨_, _, st, _, rfl⟩
    · exact hd.branch hb
    · exact Dated.cancel (hd.branch hc) reason
    · exact dated_ofStage m.now st
  | @branch a b m w p f i hp hf hb h ih =>
    have hm := List.mem_of_getElem? hb
    have hbl : b.stage.Lasting scriptOf := ha.here.branch_stage hl hm
    refine .mk { hd.here with unjoined := fun _ g j c ms lines error hg hc hce hj => ?_ } fun c hc => ?_
    · rcases getElem?_set_cases hc with ⟨_, rfl⟩ | ⟨_, hc⟩
      · exact h.ms_of_phase hbl hce
      · exact hd.here.unjoined hp g j c ms lines error hg hc hce hj
    · rcases List.mem_or_eq_of_mem_set hc with hc | rfl
      · exact hd.branch hc
      · exact ih (ha.branch hm) hbl (hd.branch hm)

end Steps

end Activity

end StageTree
