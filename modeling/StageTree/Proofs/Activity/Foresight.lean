import StageTree.Proofs.Activity.Calm

/-! What becomes of a tree stays the same as its stages go on. A unit that is over ended when it was to end,
a failure that is joined comes at the instant that the deadline of its group was cut off at, and a group is
over when the last of its branches is. -/

namespace StageTree.Activity

variable {scriptOf : String → Script} {vars : Bindings} {now : Nat} {a : Activity Asleep}
  {deadline : Option Nat}

theorem predictAll_set {bs : List (Activity Asleep)} {i : Nat} {b b' : Activity Asleep}
    (hb : bs[i]? = some b)
    (h : b'.predict scriptOf vars now deadline = b.predict scriptOf vars now deadline) :
    predictAll scriptOf vars now (bs.set i b') deadline = predictAll scriptOf vars now bs deadline := by
  rw [predictAll_eq, predictAll_eq, map_set_of_eq hb h]

/-! ### A group that is over -/

/-- What has become of branches that have ended is known. -/
theorem predictAll_of_hasEnded {bs : List (Activity Asleep)} (h : ∀ b ∈ bs, b.Sound ∧ b.hasEnded = true)
    (now now' : Nat) (deadline deadline' : Option Nat) :
    predictAll scriptOf vars now bs deadline = predictAll scriptOf vars now' bs deadline' := by
  rw [predictAll_eq, predictAll_eq]
  exact List.map_congr_left fun b hb => predict_of_hasEnded (h b hb).1 (h b hb).2 now now' deadline deadline'

theorem predict_of_branches (hp : a.phase = .fanned) {f : Fan} (hf : a.fan = some f)
    (h : ∀ b ∈ a.branches, b.Sound ∧ b.hasEnded = true) : a.predict scriptOf vars now deadline =
      a.stage.settled scriptOf vars a.since (predictAll scriptOf vars now a.branches deadline) deadline := by
  cases hs : f.scope with
  | none => rw [predict_live hp hf hs, Stage.grouped, predictAll_of_hasEnded h now now _ deadline]
  | some reason => rw [predict_cancelled hp hf hs, predictAll_of_hasEnded h now now _ deadline]

/-- All branches of a group that joins the last one have ended. -/
theorem Coherent.hasEnded_of_joining (ha : a.Coherent) {i ms : Nat} {f : Fan} {b : Activity Asleep}
    {lines : Option (List String)} {error : Option RunError} (hf : a.fan = some f)
    (hb : a.branches[i]? = some b) (he : b.phase = .ended ms lines error) (hj : f.hasJoined i = false)
    (hl : ¬ (f.joining a.stage.failsFast (b.report i error)).join.reports.length < a.branches.length) :
    ∀ (k : Nat) (c : Activity Asleep), a.branches[k]? = some c → c.hasEnded = true ∧
      c.report k c.error? ∈ (f.joining a.stage.failsFast (b.report i error)).join.reports := by
  have hfaith := ha.faithful_joining hf hb he hj
  exact fun k c hc => hfaith.mem_of_length (Nat.le_antisymm hfaith.length_le (Nat.le_of_not_lt hl)) hc

/-- The last instant at which a branch of such a group ended is now. -/
theorem latest_eq (hd : a.Dated scriptOf vars now) (hp : a.phase = .fanned) {i ms : Nat} {f : Fan}
    {b : Activity Asleep} {lines : Option (List String)} {error : Option RunError} (hf : a.fan = some f)
    (hb : a.branches[i]? = some b) (he : b.phase = .ended ms lines error) (hj : f.hasJoined i = false)
    (h : ∀ c ∈ a.branches, c.hasEnded = true) :
    Fate.latest (predictAll scriptOf vars now a.branches deadline) = now := by
  rw [predictAll_eq]
  refine Nat.le_antisymm (Fate.latest_le fun g hg => ?_) ?_
  · obtain ⟨c, hc, rfl⟩ := List.mem_map.1 hg
    obtain ⟨ms', lines', error', hcp⟩ := hasEnded_iff.1 (h c hc)
    rw [predict_ended hcp]
    exact (hd.branch hc).here.ended _ _ _ hcp
  · have hle := Fate.le_latest (List.mem_map_of_mem
      (f := fun c => c.predict scriptOf vars now deadline) (List.mem_of_getElem? hb))
    rwa [predict_ended he, hd.here.unjoined hp f i b ms lines error hf hb he hj] at hle

theorem any_status {bs : List (Activity Asleep)} (h : ∀ b ∈ bs, b.hasEnded = true) (status : Status) :
    (predictAll scriptOf vars now bs deadline).any (·.status = status) = true ↔
      ∃ b ∈ bs, Status.ofError b.error? = status := by
  rw [predictAll_eq, List.any_map, List.any_eq_true]
  refine exists_congr fun b => and_congr_right fun hb => ?_
  obtain ⟨ms, lines, error, hp⟩ := hasEnded_iff.1 (h b hb)
  simp [predict_ended hp, error?_of_phase hp]

/-- A group ends as its first failure, or else its first error, says, if one of its branches ended with an
error, and else goes on. -/
theorem settled_eq {g : Fan} (hfaith : g.Faithful a.branches)
    (h : ∀ (k : Nat) (c : Activity Asleep), a.branches[k]? = some c → c.hasEnded = true ∧
      c.report k c.error? ∈ g.join.reports)
    (hlatest : Fate.latest (predictAll scriptOf vars now a.branches deadline) = now) :
    a.stage.settled scriptOf vars a.since (predictAll scriptOf vars now a.branches deadline) deadline =
      let f : Fate :=
        { name := a.stage.name
          since := a.since
          ends := now
          branches := predictAll scriptOf vars now a.branches deadline }
      match g.join.error with
      | some e => { f with status := .ofError (some e) }
      | none => a.stage.onward scriptOf vars f now deadline := by
  have hended : ∀ b ∈ a.branches, b.hasEnded = true := fun b hb => by
    obtain ⟨k, hk⟩ := List.mem_iff_getElem?.1 hb
    exact (h k b hk).1
  -- the errors that the group knows of are those of its branches
  have hany (status : Status) :
      (predictAll scriptOf vars now a.branches deadline).any (·.status = status) = true ↔
        ∃ error ∈ g.join.reports.map Report.error, Status.ofError error = status := by
    rw [any_status hended]
    constructor
    · rintro ⟨b, hb, hs⟩
      obtain ⟨k, hk⟩ := List.mem_iff_getElem?.1 hb
      exact ⟨_, List.mem_map_of_mem (h k b hk).2, hs⟩
    · rintro ⟨error, he, hs⟩
      obtain ⟨r, hr, rfl⟩ := List.mem_map.1 he
      obtain ⟨b, hb, _, e⟩ := hfaith.report r hr
      rw [e] at hs
      exact ⟨b, List.mem_of_getElem? hb, hs⟩
  have herror := hfaith.error_eq
  rw [Stage.settled, hlatest]
  cases he : g.join.error with
  | some e =>
    rw [he] at herror
    have hstatus := Status.ofError_firstError herror.symm
    by_cases hfail : (predictAll scriptOf vars now a.branches deadline).any (·.status = .fail) = true
    · rw [if_pos ((hany _).1 hfail)] at hstatus
      rw [if_pos hfail]
      simp only [hstatus]
    · rw [if_neg fun h => hfail ((hany _).2 h)] at hstatus
      rw [if_neg hfail, if_pos ((hany _).2 ⟨_, Join.mem_of_foldl_firstError herror.symm, hstatus⟩)]
      simp only [hstatus]
  | none =>
    have hnone := Join.foldl_firstError_eq_none.1 (herror.symm.trans he)
    have hok (status : Status) (hs : status ≠ .ok) :
        ¬ (predictAll scriptOf vars now a.branches deadline).any (·.status = status) = true := fun hs' => by
      obtain ⟨error, hm, e⟩ := (hany status).1 hs'
      rw [hnone error hm] at e
      exact hs e.symm
    rw [if_neg (hok .fail (by simp)), if_neg (hok .cancel (by simp))]

/-! ### Steps -/

section Steps

variable {x : Act} {m : Moment} {w : Journal} {p : Played Journal Asleep}

/-- A stage that goes on to its unit ends as a unit that starts then does. -/
theorem Onward.predict_eq {stage : Stage} {since : Nat} {phase : Phase Asleep} {w' : Journal}
    {trace : List Entry} (h : Onward (.scripted scriptOf vars) m stage since w phase w' trace)
    (hl : stage.Lasting scriptOf) (hdead : m.scope.isSome = true → deadline = some m.now) (fan : Option Fan)
    (branches : List (Activity Asleep)) :
    predict scriptOf vars m.now ⟨stage, since, phase, fan, branches⟩ deadline =
      stage.onward scriptOf vars
        { name := stage.name
          since
          ends := m.now
          branches := predictAll scriptOf vars m.now branches deadline } m.now deadline := by
  rcases onward_cases hl.here h with ⟨hsteps, rfl⟩ | ⟨hsteps, reason, hs, rfl⟩ | ⟨hsteps, hs, rfl⟩
  · rw [predict_ended rfl, Stage.onward, if_neg (by simp [hsteps])]
    rfl
  · rw [predict_ended rfl, Stage.onward, if_pos hsteps, hdead (by simp [hs]),
      Fate.working_of_lt (Stage.lt_waitEnd (hl.here hsteps))]
    rfl
  · rw [predict_working rfl, Stage.onward, if_pos hsteps]

/-- A group whose failure is joined, or another report, has the same ahead of it. -/
theorem predict_joining (ha : a.Sound) (hal : a.Alert) (hl : a.stage.Lasting scriptOf)
    (hd : a.Dated scriptOf vars now) (hp : a.phase = .fanned) {i ms : Nat} {f : Fan} {b : Activity Asleep}
    {lines : Option (List String)} {error : Option RunError} (hf : a.fan = some f)
    (hb : a.branches[i]? = some b) (he : b.phase = .ended ms lines error) (hj : f.hasJoined i = false)
    (hdead : ∀ d ∈ deadline, now ≤ d) :
    predict scriptOf vars now
      { a with
        fan := some (f.joining a.stage.failsFast (b.report i error))
        branches := a.joiningBranches f (b.report i error) } deadline =
      a.predict scriptOf vars now deadline := by
  by_cases hc : Join.cancels a.stage.failsFast f.scope (b.report i error) = true
  · obtain ⟨hff, hs, hfail⟩ := Join.cancels_iff.1 hc
    have hle : ∀ g ∈ predictAll scriptOf vars now a.branches deadline, g.status = .fail → now ≤ g.ends :=
      le_of_fail ha.here hal hf hs (hd.le_ends_branch ha hal hl hp hf hdead) hff
    -- the failure that is joined is the first one
    have hfirst : Fate.firstFailure? (predictAll scriptOf vars now a.branches deadline) = some now := by
      refine Fate.firstFailure?_eq_some.2 ⟨⟨b.predict scriptOf vars now deadline, ?_, ?_, ?_⟩, hle⟩
      · rw [predictAll_eq]
        exact List.mem_map_of_mem (List.mem_of_getElem? hb)
      · rw [predict_ended he]
        exact Status.ofError_eq_fail.2 hfail
      · rw [predict_ended he]
        exact hd.here.unjoined hp f i b ms lines error hf hb he hj
    have hcut : Fate.cutoff a.stage.failsFast deadline (predictAll scriptOf vars now a.branches deadline) =
        some now := by
      rw [Fate.cutoff, if_pos hff, hfirst]
      cases deadline with
      | none => rfl
      | some d => exact congrArg some (Nat.min_eq_right (hdead d rfl))
    rw [predict_cancelled (by exact hp) rfl (by simp [Fan.joining, hc]; rfl), predict_live hp hf hs,
      Stage.grouped, hcut]
    simp only [joiningBranches, hc, if_true]
    rw [predictAll_eq, predictAll_eq, List.map_map]
    congr 1
    refine List.map_congr_left fun c hm => ?_
    exact predict_cancel (ha.branch hm) (hal.branch hm)
      (ha.here.branch_stage hl hm) (hd.branch hm) _
  · have hscope : (f.joining a.stage.failsFast (b.report i error)).scope = f.scope := by
      simp [Fan.joining, hc]
    have hbranches : a.joiningBranches f (b.report i error) = a.branches := by simp [joiningBranches, hc]
    rw [hbranches]
    cases hs : f.scope with
    | none => rw [predict_live (by exact hp) rfl (hscope.trans hs), predict_live hp hf hs]
    | some reason => rw [predict_cancelled (by exact hp) rfl (hscope.trans hs), predict_cancelled hp hf hs]

/-- What a group has ahead of it once it has joined its last branch. -/
theorem predict_gathering (deadline : Option Nat) (ha : a.Sound) (hd : a.Dated scriptOf vars now)
    (hp : a.phase = .fanned) {i ms : Nat} {f : Fan} {b : Activity Asleep} {lines : Option (List String)} {error : Option RunError}
    (hf : a.fan = some f) (hb : a.branches[i]? = some b) (he : b.phase = .ended ms lines error)
    (hj : f.hasJoined i = false)
    (hlen : ¬ (f.joining a.stage.failsFast (b.report i error)).join.reports.length < a.branches.length) :
    a.joiningBranches f (b.report i error) = a.branches ∧
      a.predict scriptOf vars now deadline =
        let fate : Fate :=
          { name := a.stage.name
            since := a.since
            ends := now
            branches := predictAll scriptOf vars now a.branches deadline }
        match (f.joining a.stage.failsFast (b.report i error)).join.error with
        | some e => { fate with status := .ofError (some e) }
        | none => a.stage.onward scriptOf vars fate now deadline := by
  have hall := ha.here.hasEnded_of_joining hf hb he hj hlen
  have hended : ∀ c ∈ a.branches, c.hasEnded = true := fun c hc => by
    obtain ⟨k, hk⟩ := List.mem_iff_getElem?.1 hc
    exact (hall k c hk).1
  have hfaith := ha.here.faithful_joining hf hb he hj
  refine ⟨?_, ?_⟩
  · rcases a.joiningBranches_eq f (b.report i error) with e | ⟨reason, e⟩ <;> rw [e]
    exact (List.map_congr_left fun c hc => cancel_of_hasEnded reason (hended c hc)).trans (List.map_id' _)
  · rw [predict_of_branches hp hf fun c hc => ⟨ha.branch hc, hended c hc⟩]
    exact settled_eq hfaith hall (latest_eq hd hp hf hb he hj hended)

/-- In a tree that is busy beyond the instant what becomes of it stays the same as a stage starts. -/
theorem Timely.predict_of_lasts (h : Timely (.scripted scriptOf vars) x a m w p) (ha : a.Sound) (hal : a.Alert)
    (hl : a.stage.Lasting scriptOf) (hd : a.Dated scriptOf vars m.now) (hm : m.scope = none)
    (hlasts : a.Lasts m.now (m.now + 1)) (hdead : ∀ d ∈ deadline, m.now < d) :
    p.activity.predict scriptOf vars m.now deadline = a.predict scriptOf vars m.now deadline := by
  induction h generalizing deadline with
  | @here a m w p h hdue =>
    have hx := ((Timely.here h hdue).lasts ha hl hd hm hlasts).1
    cases h with
    | looked | joined | failed | gathered => cases hx
    | refused hp hs => simp [hm] at hs
    | @fanned stages hp hs hg =>
      rw [predict_live rfl rfl rfl, predict_waiting hp, Stage.fate_of_group hdead hg, predictAll_ofStage]
    | begun hp hs hg ho =>
      have hnil : a.branches = [] := ha.here.single (ha.here.waiting hp)
      rw [ho.predict_eq hl (by simp [hm]), predict_waiting hp, Stage.fate_of_single hdead hg, hnil]
      rfl
  | @branch a b m w p f i hp hf hb h ih =>
    have hmem := List.mem_of_getElem? hb
    have hj := ha.here.not_hasJoined hf hb h.stepped.not_hasEnded
    obtain ⟨hs, hbl⟩ := hlasts.branch hp hf hb hj
    have hbranch {e : Option Nat} (he : ∀ d ∈ e, m.now < d) :
        predictAll scriptOf vars m.now (a.branches.set i p.activity) e =
          predictAll scriptOf vars m.now a.branches e :=
      predictAll_set hb (ih (ha.branch hmem) (hal.branch hmem)
        (ha.here.branch_stage hl hmem) (hd.branch hmem) hs hbl he)
    have hends (k : Nat) (c : Activity Asleep) (hk : a.branches[k]? = some c) (hkj : f.hasJoined k = false) :
        m.now + 1 ≤ (c.predict scriptOf vars m.now deadline).ends :=
      have hkm := List.mem_of_getElem? hk
      (hlasts.branch hp hf hk hkj).2.le_ends (ha.branch hkm) (hal.branch hkm)
        (ha.here.branch_stage hl hkm) hdead
    have hcut := Fate.le_cutoff hdead (le_of_fail ha.here hal hf hs hends)
    rw [predict_live hp hf hs, predict_live (a := { a with branches := a.branches.set i p.activity }) hp hf hs,
      Stage.grouped, Stage.grouped, hbranch hdead, hbranch hcut]

/-- In a tree in which every stage has started, or will be refused, what becomes of it stays the same as a stage
goes on. A unit that is over is looked at before anything else happens, and at an instant of its own. -/
theorem Timely.predict_of_started (h : Timely (.scripted scriptOf vars) x a m w p) (ha : a.Sound)
    (hal : a.Alert) (hl : a.stage.Lasting scriptOf) (hd : a.Dated scriptOf vars m.now)
    (hst : a.Started ∨ m.scope.isSome = true ∧ a.Quenched)
    (hcalm : (∀ d ∈ a.wakes, m.now < d) ∨ m.scope = none ∧ a.Still) (hdead : ∀ d ∈ deadline, m.now ≤ d)
    (hnow : m.scope.isSome = true → deadline = some m.now) :
    p.activity.predict scriptOf vars m.now deadline = a.predict scriptOf vars m.now deadline := by
  induction h generalizing deadline with
  | @here a m w p h hdue =>
    cases h with
    | refused hp hs =>
      have hnil : a.branches = [] := ha.here.single (ha.here.waiting hp)
      rw [predict_ended rfl, predict_waiting hp, hnow (by simp [hs]), Stage.fate_of_le (by simp), hnil]
      rfl
    | fanned hp hs | begun hp hs =>
      rcases hst with hst | ⟨hsome, _⟩
      · exact absurd hp hst.phase_ne
      · simp [hs] at hsome
    | @looked u phase w' trace hp ht =>
      rw [predict_working hp]
      rcases taken_look ht with ⟨reason, hs, rfl⟩ | ⟨_, hle, rfl⟩ | ⟨hs, hlt, rfl⟩
      · have hlt : m.now < u.wakes := (hcalm.resolve_right fun h => by simp [hs] at h) _ (by simp [wakes_eq, hp])
        rw [predict_ended rfl, hnow (by simp [hs]), Fate.working_of_lt hlt]
        rfl
      · have hwakes : u.wakes = m.now := Nat.le_antisymm hle (hd.here.wakes u hp)
        rw [predict_ended rfl, Fate.working_of_le (hwakes ▸ hdead), Script.ofError_error?, hwakes]
      · rw [predict_working rfl]
    | joined hp hf hb he hj hlen => exact predict_joining ha hal hl hd hp hf hb he hj hdead
    | failed hp hf hb he hj hlen hr =>
      obtain ⟨hbranches, hfate⟩ := predict_gathering deadline ha hd hp hf hb he hj hlen
      rw [hr] at hfate
      rw [hfate, predict_ended rfl, hbranches]
    | gathered hp hf hb he hj hlen hr ho =>
      obtain ⟨hbranches, hfate⟩ := predict_gathering deadline ha hd hp hf hb he hj hlen
      rw [hr] at hfate
      rw [hfate, ho.predict_eq hl hnow, hbranches]
  | @branch a b m w p f i hp hf hb h ih =>
    have hmem := List.mem_of_getElem? hb
    have hcalm' : (∀ d ∈ b.wakes, m.now < d) ∨ f.scope = none ∧ b.Still := by
      rcases hcalm with hcalm | ⟨_, hstill⟩
      · exact .inl fun d hdb => hcalm d (mem_wakes_of_branch hp hmem hdb)
      · cases hstill with
        | working hp' => simp [hp] at hp'
        | fanned _ hf' hs _ hstill =>
          obtain rfl := Option.some.inj (hf.symm.trans hf')
          exact .inr ⟨hs, hstill b hmem h.stepped.not_hasEnded⟩
    have hst' : b.Started ∨ f.scope.isSome = true ∧ b.Quenched := by
      refine hst.imp (fun hst => hst.branch hp hmem) fun ⟨_, hq⟩ => ⟨?_, hq.branch hp hmem⟩
      exact isScopeCancelled_of_fan hf ▸ hq.here hp
    have hbranch {e : Option Nat} (he : ∀ d ∈ e, m.now ≤ d) (hsome : f.scope.isSome = true → e = some m.now) :
        predictAll scriptOf vars m.now (a.branches.set i p.activity) e =
          predictAll scriptOf vars m.now a.branches e :=
      predictAll_set hb (ih (ha.branch hmem) (hal.branch hmem)
        (ha.here.branch_stage hl hmem) (hd.branch hmem) hst' hcalm' he hsome)
    cases hs : f.scope with
    | some reason =>
      have hcancelled := hbranch (e := some m.now) (fun d hd' => Nat.le_of_eq (Option.some.inj hd')) fun _ => rfl
      rw [predict_cancelled hp hf hs,
        predict_cancelled (a := { a with branches := a.branches.set i p.activity }) hp hf hs, hcancelled]
    | none =>
      have hcut := Fate.le_cutoff hdead
        (le_of_fail ha.here hal hf hs (hd.le_ends_branch ha hal hl hp hf hdead))
      rw [predict_live hp hf hs, predict_live (a := { a with branches := a.branches.set i p.activity }) hp hf hs,
        Stage.grouped, Stage.grouped, hbranch hdead (by simp [hs]), hbranch hcut (by simp [hs])]

end Steps

end StageTree.Activity
