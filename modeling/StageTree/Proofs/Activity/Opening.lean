import StageTree.Proofs.Activity.Rivals

/-! Trees at the instant at which they start, as long as nobody cancels them: stages only start. If the run is
cancelled then and there, each stage that has gone on is cancelled with its branches, and the others are
refused. -/

namespace StageTree.Activity

variable {scriptOf : String → Script} {vars : Bindings} {now : Nat} {begun : List Nat → Bool}
  {a : Activity Asleep}

/-- A tree at the instant of its start, in which the stages at some positions have gone on. -/
inductive Opening (now : Nat) : (List Nat → Bool) → Activity Asleep → Prop
  | waiting {begun : List Nat → Bool} {a : Activity Asleep} (hp : a.phase = .waiting)
      (hn : ∀ position, begun position = false) : Opening now begun a
  | working {begun : List Nat → Bool} {a : Activity Asleep} {u : Asleep} (hp : a.phase = .working u)
      (hs : a.since = now) (hb : begun [] = true) (hg : a.fan = none) (hw : now < u.wakes) :
      Opening now begun a
  | fanned {begun : List Nat → Bool} {a : Activity Asleep} {f : Fan} (hp : a.phase = .fanned)
      (hs : a.since = now) (hb : begun [] = true) (hf : a.fan = some f) (hl : f.scope = none)
      (h : ∀ i b, a.branches[i]? = some b → Opening now (fun position => begun (i :: position)) b) :
      Opening now begun a

namespace Opening

theorem hasEnded_eq (h : a.Opening now begun) : a.hasEnded = false := by
  cases h <;> simp [hasEnded, *]

/-- No unit of the tree is over. -/
theorem lt_wakes (h : a.Opening now begun) (ha : a.Sound) : ∀ d ∈ a.wakes, now < d := by
  intro d hd
  induction h with
  | waiting hp =>
    rw [wakes_eq, hp, ha.here.single (ha.here.waiting hp)] at hd
    cases hd
  | working hp _ _ _ hw =>
    rw [wakes_eq, hp] at hd
    exact List.mem_singleton.1 hd ▸ hw
  | fanned hp _ _ _ _ _ ih =>
    rw [wakes_eq, hp] at hd
    obtain ⟨b, hb, hd⟩ := mem_duesAll.1 hd
    obtain ⟨i, hi⟩ := List.mem_iff_getElem?.1 hb
    exact ih i b hi (ha.branch hb) hd

/-- Whoever has gone on when the run is cancelled is cancelled with his branches; the others are refused. -/
theorem predict_eq (h : a.Opening now begun) (ha : a.Sound) :
    a.predict scriptOf vars now (some now) = a.stage.overtaken now begun := by
  induction h with
  | waiting hp hn =>
    rw [predict_waiting hp, Stage.fate_of_le (by simp), Stage.overtaken_of_not_begun (hn [])]
  | @working begun a u hp hs hb hg hw =>
    have hnone : a.stage.parallel = none := by
      rcases ha.here.alone hg with hp' | hnone | ⟨_, _, hp'⟩
      · simp [hp] at hp'
      · exact hnone
      · simp [hp] at hp'
    rw [predict_working hp, Fate.working_of_lt hw, Stage.overtaken_eq, hs, ha.here.single hg]
    simp [Stage.branches, hnone, predictAll]
  | @fanned begun a f hp hs hb hf hl h ih =>
    have hbranches : predictAll scriptOf vars now a.branches (some now) =
        a.stage.branches.mapIdx fun k b => b.overtaken now fun position => begun (k :: position) := by
      rw [predictAll_eq, ha.here.stages hf]
      refine List.ext_getElem? fun i => ?_
      rw [List.getElem?_map, List.getElem?_mapIdx, List.getElem?_map, Option.map_map]
      cases hi : a.branches[i]? with
      | none => rfl
      | some b => exact congrArg some (ih i b hi (ha.branch (List.mem_of_getElem? hi)))
    -- all branches are cancelled now
    have hall : ∀ g ∈ predictAll scriptOf vars now a.branches (some now), g.status = .cancel ∧ g.ends = now := by
      intro g hg
      rw [hbranches] at hg
      obtain ⟨k, hk, rfl⟩ := List.mem_mapIdx.1 hg
      rw [Stage.overtaken_eq]
      exact ⟨rfl, rfl⟩
    have hcut : Fate.cutoff a.stage.failsFast (some now) (predictAll scriptOf vars now a.branches (some now)) =
        some now := Fate.cutoff_of_le fun _ g hg _ => Nat.le_of_eq (hall g hg).2.symm
    obtain ⟨b, rest, hne⟩ := List.exists_cons_of_ne_nil (ha.here.ne_nil hf)
    have hmem : b.predict scriptOf vars now (some now) ∈ predictAll scriptOf vars now a.branches (some now) := by
      rw [hne]
      exact List.mem_cons_self
    have hlatest : Fate.latest (predictAll scriptOf vars now a.branches (some now)) = now :=
      Nat.le_antisymm (Fate.latest_le fun g hg => Nat.le_of_eq (hall g hg).2)
        (Nat.le_trans (Nat.le_of_eq (hall _ hmem).2.symm) (Fate.le_latest hmem))
    have hfail : ¬ (predictAll scriptOf vars now a.branches (some now)).any (·.status = .fail) = true := by
      rw [List.any_eq_true]
      rintro ⟨g, hg, hfail⟩
      simp [(hall g hg).1] at hfail
    have hcancel : (predictAll scriptOf vars now a.branches (some now)).any (·.status = .cancel) = true :=
      List.any_eq_true.2 ⟨_, hmem, by simp [(hall _ hmem).1]⟩
    rw [predict_live hp hf hl, Stage.grouped, hcut, Stage.settled, if_neg hfail, if_pos hcancel, hlatest, hs,
      Stage.overtaken_eq, if_pos hb, hbranches]

/-- A stage that goes on at this instant starts, and then it is one of those that have gone on. -/
theorem step {m : Moment} {w : Journal} {x : Act} {position : List Nat} {q : Played Journal Asleep}
    (h : a.Opening m.now begun) (ha : a.Sound) (hl : a.stage.Lasting scriptOf) (hm : m.scope = none)
    (hx : Able (Setting.scripted scriptOf vars).runner.due m.now m.scope a position x)
    (hq : a.step (.scripted scriptOf vars) x position m w = some q) :
    q.activity.Opening m.now fun other => begun other || other == position := by
  induction position generalizing a m begun q with
  | nil =>
    cases h with
    | waiting hp hn =>
      cases acted_of_act ha.here.proper.group hq with
      | refused _ hs => simp [hm] at hs
      | fanned =>
        refine .fanned rfl rfl (by simp) rfl rfl fun i b hb => .waiting ?_ (by simp [hn])
        obtain ⟨st, _, rfl⟩ := List.mem_map.1 (List.mem_of_getElem? hb)
        rfl
      | begun _ _ hg ho =>
        have hsteps : a.stage.hasSteps = true := ha.here.proper.content.resolve_right fun hne => hne hg
        rcases onward_cases hl.here ho with ⟨hno, _⟩ | ⟨_, _, hs, _⟩ | ⟨_, _, rfl⟩
        · simp [hsteps] at hno
        · simp [hm] at hs
        · exact .working rfl rfl (by simp) (ha.here.waiting hp) (Stage.lt_waitEnd (hl.here hsteps))
      | looked hp' | joined hp' | failed hp' | gathered hp' => simp [hp] at hp'
    | working hp hs hb hg hw =>
      -- its unit is not due
      cases hx with
      | start hp' | join hp' => simp [hp] at hp'
      | look hp' hd =>
        obtain rfl := Phase.working.inj (hp.symm.trans hp')
        simp [hm, Runner.scripted] at hd
        omega
    | fanned hp hs hb hf hl h =>
      -- none of its branches has ended
      cases hx with
      | start hp' | look hp' => simp [hp] at hp'
      | join _ _ hi he => simp [(h _ _ hi).hasEnded_eq] at he
  | cons i position ih =>
    cases hx with
    | @branch _ _ b f _ _ _ hp hf hi hx =>
      rw [Activity.step, hp, hf, hi] at hq
      obtain ⟨r, hr, rfl⟩ := Option.map_eq_some_iff.1 hq
      cases h with
      | waiting hp' | working hp' => simp [hp] at hp'
      | fanned _ hs hb hf' hscope h =>
        obtain rfl := Option.some.inj (hf.symm.trans hf')
        have hmem := List.mem_of_getElem? hi
        have hbranch : r.activity.Opening m.now fun other => begun (i :: other) || other == position :=
          ih (m := m.below f b.stage.name) (h i b hi) (ha.branch hmem) (ha.here.branch_stage hl hmem) hscope hx hr
        refine .fanned rfl hs (by simp [hb]) rfl hscope fun k c hc => ?_
        rcases getElem?_set_cases hc with ⟨rfl, rfl⟩ | ⟨hk, hc⟩
        · simpa using hbranch
        · simpa [beq_eq_false_iff_ne.2 hk] using h k c hc

end Opening

end StageTree.Activity
