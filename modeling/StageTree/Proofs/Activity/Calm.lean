import StageTree.Proofs.Activity.Still

/-! Units that are due, in trees whose units follow scripts. As long as every stage that has not ended is
busy beyond an instant, stages only start; once all have started, none is due again that was not. A tree
that stands still has the same ahead of it however late it is. -/

namespace StageTree.Activity

variable {scriptOf : String → Script} {vars : Bindings} {now now' n : Nat} {a : Activity Asleep}
  {deadline : Option Nat}

/-- The instants at which the units at work in a tree are over. -/
abbrev wakes (a : Activity Asleep) : List Nat := dues (fun u => some u.wakes) a

theorem wakes_eq (a : Activity Asleep) : a.wakes =
    match a.phase with
    | .working u => [u.wakes]
    | _ => duesAll (fun u => some u.wakes) a.branches := by
  rw [wakes, dues_eq]
  cases a.phase <;> rfl

theorem wakes_sublist {b : Activity Asleep} (hp : a.phase = .fanned) (hb : b ∈ a.branches) :
    b.wakes.Sublist a.wakes := by
  rw [wakes_eq a, hp]
  simp only [duesAll_eq, List.flatMap_def]
  exact List.sublist_flatten_of_mem (List.mem_map_of_mem hb)

theorem mem_wakes_of_branch {b : Activity Asleep} {d : Nat} (hp : a.phase = .fanned) (hb : b ∈ a.branches)
    (hd : d ∈ b.wakes) : d ∈ a.wakes :=
  (wakes_sublist hp hb).subset hd

/-- As time passes the same is ahead of a tree that stands still. -/
theorem Still.predict_eq (h : a.Still) (ha : a.Sound) (now now' : Nat) (deadline : Option Nat) :
    a.predict scriptOf vars now deadline = a.predict scriptOf vars now' deadline := by
  induction h generalizing deadline with
  | working hp =>
    rw [predict_working hp, predict_working hp, ha.predictAll_eq (by simp [hp]) now now' deadline deadline,
      Fate.working, Fate.working]
  | @fanned a f hp hf hs hj hb ih =>
    have hbranches (deadline : Option Nat) : predictAll scriptOf vars now a.branches deadline =
        predictAll scriptOf vars now' a.branches deadline := by
      rw [predictAll_eq, predictAll_eq]
      refine List.map_congr_left fun b hm => ?_
      cases he : b.hasEnded with
      | true => exact predict_of_hasEnded (ha.branch hm) he now now' deadline deadline
      | false => exact ih b hm he (ha.branch hm) deadline
    rw [predict_live hp hf hs, predict_live hp hf hs, Stage.grouped, Stage.grouped, hbranches, hbranches]

/-- A tree that stands still is busy as long as its units are. -/
theorem Still.lasts (h : a.Still) (hw : ∀ d ∈ a.wakes, n ≤ d) : a.Lasts now n := by
  induction h with
  | @working a u hp => exact .working hp (hw _ (by simp [wakes_eq, hp]))
  | @fanned a f hp hf hs hj hb ih =>
    refine .fanned hp hf (by simp [hs]) fun i b hi hn => ?_
    have hm := List.mem_of_getElem? hi
    have he := hasEnded_eq_false_of_open hj hi hn
    exact ih b hm he fun d hd => hw d (mem_wakes_of_branch hp hm hd)

/-- A tree that stands still is as it should be at every instant up to the first one at which a unit is over. -/
theorem Still.dated (h : a.Still) (ha : a.Sound) (hd : a.Dated scriptOf vars now) (hle : now ≤ now')
    (hw : ∀ d ∈ a.wakes, now' ≤ d) : a.Dated scriptOf vars now' := by
  have ended {b : Activity Asleep} (hb : b.Sound) (he : b.hasEnded = true) (hbd : b.Dated scriptOf vars now) :
      b.Dated scriptOf vars now' := by
    have hall := hb.hasEnded he
    clear hb he
    induction hall with
    | @mk b he below ih =>
      obtain ⟨ms, lines, error, hp⟩ := hasEnded_iff.1 he
      refine .mk ⟨fun u hu => by simp [hp] at hu, fun u hu => by simp [hp] at hu, fun ms lines error hp' => ?_,
        fun hp' => by simp [hp] at hp'⟩ fun c hc => ih c hc (hbd.branch hc)
      exact Nat.le_trans (hbd.here.ended ms lines error hp') hle
  induction h with
  | @working a u hp =>
    have hnot : a.phase ≠ .fanned := by simp [hp]
    refine .mk ⟨hd.here.unit, fun v hv => ?_, fun ms lines error he => by simp [hp] at he,
      fun hp' => absurd hp' hnot⟩ fun b hb =>
        ended (ha.branch hb) (ha.here.hasEnded_of_mem hnot hb) (hd.branch hb)
    exact hw _ (by simp [wakes_eq, hv])
  | @fanned a f hp hf hs hj hb ih =>
    refine .mk ⟨fun u hu => by simp [hp] at hu, fun u hu => by simp [hp] at hu,
      fun ms lines error he => by simp [hp] at he, fun _ g i b ms lines error hg hi he hn => ?_⟩ fun b hm => ?_
    · obtain rfl := Option.some.inj (hf.symm.trans hg)
      rw [hj i b hi (hasEnded_of_phase he)] at hn
      cases hn
    · cases he : b.hasEnded with
      | true => exact ended (ha.branch hm) he (hd.branch hm)
      | false => exact ih b hm he (ha.branch hm) (hd.branch hm) fun d hdb => hw d (mem_wakes_of_branch hp hm hdb)

section Steps

variable {x : Act} {m : Moment} {w : Journal} {p : Played Journal Asleep}

/-- In a tree that is busy beyond the instant no unit is over. -/
theorem Lasts.lt_wakes {u : Asleep} (h : a.Lasts now (now + 1)) (hp : a.phase = .working u) : now < u.wakes := by
  cases h with
  | working hp' hn => exact Phase.working.inj (hp.symm.trans hp') ▸ hn
  | waiting hp' | ended hp' | fanned hp' => simp [hp] at hp'

theorem Lasts.not_joinable {f : Fan} {i : Nat} {b : Activity Asleep} (h : a.Lasts now (now + 1))
    (hd : a.Dated scriptOf vars now) (hp : a.phase = .fanned) (hf : a.fan = some f) (hb : a.branches[i]? = some b)
    (he : b.hasEnded = true) : f.hasJoined i = true := by
  by_contra hj
  cases h with
  | waiting hp' | working hp' | ended hp' => simp [hp] at hp'
  | fanned _ hf' _ h =>
    obtain rfl := Option.some.inj (hf.symm.trans hf')
    obtain ⟨ms, lines, error, hbp⟩ := hasEnded_iff.1 he
    cases h i b hb (by simpa using hj) with
    | ended hp' hn =>
      have hms := (hd.branch (List.mem_of_getElem? hb)).here.ended _ _ _ hp'
      omega
    | waiting hp' | working hp' | fanned hp' => simp [hbp] at hp'

theorem Lasts.branch {f : Fan} {i : Nat} {b : Activity Asleep} (h : a.Lasts now (now + 1))
    (hp : a.phase = .fanned) (hf : a.fan = some f) (hb : a.branches[i]? = some b)
    (hj : f.hasJoined i = false) : f.scope = none ∧ b.Lasts now (now + 1) := by
  cases h with
  | waiting hp' | working hp' | ended hp' => simp [hp] at hp'
  | fanned _ hf' hs h =>
    obtain rfl := Option.some.inj (hf.symm.trans hf')
    refine ⟨?_, h i b hb hj⟩
    by_contra hne
    have := hs (Option.isSome_iff_ne_none.2 hne)
    omega

/-- In a tree that is busy beyond the instant stages only start, and it goes on being busy. -/
theorem Timely.lasts (h : Timely (.scripted scriptOf vars) x a m w p) (ha : a.Sound)
    (hl : a.stage.Lasting scriptOf) (hd : a.Dated scriptOf vars m.now) (hm : m.scope = none)
    (hlasts : a.Lasts m.now (m.now + 1)) : x = .start ∧ p.activity.Lasts m.now (m.now + 1) := by
  induction h with
  | @here a m w p h hdue =>
    cases h with
    | refused hp hs => simp [hm] at hs
    | @fanned stages hp =>
      refine ⟨rfl, .fanned rfl rfl (by simp) fun i b hb _ => ?_⟩
      obtain ⟨st, _, rfl⟩ := List.mem_map.1 (List.mem_of_getElem? hb)
      exact .waiting rfl (Nat.le_refl _)
    | begun hp hs hg ho =>
      refine ⟨rfl, ?_⟩
      rcases onward_cases hl.here ho with ⟨h, _⟩ | ⟨_, _, h, _⟩ | ⟨h, _, rfl⟩
      · exact absurd (ha.here.proper.content.resolve_right fun hne => hne hg) (by simp [h])
      · simp [hm] at h
      · exact .working rfl (Stage.lt_waitEnd (hl.here h))
    | looked hp ht =>
      have hlt := hlasts.lt_wakes hp
      rcases hdue _ hp with h | h
      · simp [hm] at h
      · simp only [Runner.scripted, Option.any_some, decide_eq_true_eq] at h
        omega
    | joined hp hf hb he hj | failed hp hf hb he hj | gathered hp hf hb he hj =>
      rw [hlasts.not_joinable hd hp hf hb (hasEnded_of_phase he)] at hj
      cases hj
  | @branch a b m w p f i hp hf hb h ih =>
    have hmem := List.mem_of_getElem? hb
    have hj := ha.here.not_hasJoined hf hb h.stepped.not_hasEnded
    obtain ⟨hs, hbl⟩ := hlasts.branch hp hf hb hj
    obtain ⟨hx, hafter⟩ := ih (ha.branch hmem) (ha.here.branch_stage hl hmem)
      (hd.branch hmem) hs hbl
    refine ⟨hx, .fanned hp hf (by simp [hs]) fun k c hc hk => ?_⟩
    rcases getElem?_set_cases hc with ⟨_, rfl⟩ | ⟨_, hc⟩
    · exact hafter
    · exact (hlasts.branch hp hf hc hk).2

theorem Onward.lt_wakes {stage : Stage} {since : Nat} {phase : Phase Asleep} {w' : Journal}
    {trace : List Entry} (h : Onward (.scripted scriptOf vars) m stage since w phase w' trace)
    (hl : stage.Lasting scriptOf) (hp : p.activity.phase = phase) (hs : p.activity.Sound) :
    ∀ d ∈ p.activity.wakes, m.now < d := by
  intro d hd
  have ended {ms : Nat} {lines : Option (List String)} {error : Option RunError}
      (hp : p.activity.phase = .ended ms lines error) : m.now < d := by
    rw [wakes, dues_of_hasEnded hs (hasEnded_of_phase hp)] at hd
    cases hd
  rcases onward_cases hl.here h with ⟨_, rfl⟩ | ⟨_, _, _, rfl⟩ | ⟨hst, _, rfl⟩
  · exact ended hp
  · exact ended hp
  · rw [wakes_eq, hp] at hd
    rw [List.mem_singleton.1 hd]
    exact Stage.lt_waitEnd (hl.here hst)

/-- A unit that starts is over later. -/
theorem Stepped.lt_wakes (h : Stepped (.scripted scriptOf vars) x a m w p) (ha : a.Sound)
    (hl : a.stage.Lasting scriptOf) (hw : ∀ d ∈ a.wakes, m.now < d) : ∀ d ∈ p.activity.wakes, m.now < d := by
  induction h with
  | @here a m w p h =>
    have hs := h.sound ha
    intro d hd
    cases h with
    | refused | failed =>
      rw [wakes, dues_of_hasEnded hs rfl] at hd
      cases hd
    | fanned =>
      obtain ⟨b, hb, hd⟩ := mem_duesAll.1 hd
      obtain ⟨st, _, rfl⟩ := List.mem_map.1 hb
      cases hd
    | begun hp hsc hg ho => exact ho.lt_wakes hl (p := ⟨_, w, []⟩) rfl hs d hd
    | @looked u phase w' trace hp ht =>
      rcases taken_look ht with ⟨_, _, rfl⟩ | ⟨_, _, rfl⟩ | ⟨_, hlt, rfl⟩
      · rw [wakes, dues_of_hasEnded hs rfl] at hd
        cases hd
      · rw [wakes, dues_of_hasEnded hs rfl] at hd
        cases hd
      · rw [wakes_eq] at hd
        exact List.mem_singleton.1 hd ▸ hlt
    | joined hp hf hb he hj hlen =>
      rw [wakes_eq] at hd
      simp only [hp, dues_joiningBranches] at hd
      exact hw d (by rw [wakes_eq, hp]; exact hd)
    | gathered hp hf hb he hj hlen hr ho => exact ho.lt_wakes hl (p := ⟨_, w, []⟩) rfl hs d hd
  | @branch a b m w p f i hp hf hb h ih =>
    have hmem := List.mem_of_getElem? hb
    have hbranch := ih (ha.branch hmem) (ha.here.branch_stage hl hmem)
      fun d hd => hw d (mem_wakes_of_branch hp hmem hd)
    intro d hd
    rw [wakes_eq] at hd
    simp only [hp] at hd
    obtain ⟨c, hc, hd⟩ := mem_duesAll.1 hd
    rcases List.mem_or_eq_of_mem_set hc with hc | rfl
    · exact hw d (mem_wakes_of_branch hp hc hd)
    · exact hbranch d hd

/-- Of the units that are over in a tree that stands still one less is left after a step. -/
theorem Timely.countP_wakes (h : Timely (.scripted scriptOf vars) x a m w p) (ha : a.Sound) (hs : a.Still)
    (hm : m.scope = none) : p.activity.wakes.countP (· ≤ m.now) + 1 = a.wakes.countP (· ≤ m.now) := by
  induction h with
  | @here a m w p h hdue =>
    have hsound := h.sound ha
    cases hs with
    | @working _ u hp =>
      cases h with
      | refused hp' | fanned hp' | begun hp' | joined hp' | failed hp' | gathered hp' => simp [hp] at hp'
      | @looked v phase w' trace hp' ht =>
        obtain rfl := Phase.working.inj (hp.symm.trans hp')
        have hle : u.wakes ≤ m.now := by simpa [hm, Runner.scripted] using hdue u hp
        rcases taken_look ht with ⟨_, h, _⟩ | ⟨_, _, rfl⟩ | ⟨_, hlt, _⟩
        · simp [hm] at h
        · rw [wakes, dues_of_hasEnded hsound rfl, wakes_eq a, hp]
          simp [hle]
        · omega
    | fanned hp hf hsc hj hb =>
      cases h with
      | refused hp' | fanned hp' | begun hp' | looked hp' => simp [hp] at hp'
      | joined _ hf' hb he hn | failed _ hf' hb he hn | gathered _ hf' hb he hn =>
        obtain rfl := Option.some.inj (hf.symm.trans hf')
        rw [hj _ _ hb (hasEnded_of_phase he)] at hn
        cases hn
  | @branch a b m w p f i hp hf hb h ih =>
    have hmem := List.mem_of_getElem? hb
    cases hs with
    | working hp' => simp [hp] at hp'
    | fanned _ hf' hsc _ hstill =>
      obtain rfl := Option.some.inj (hf.symm.trans hf')
      have hbranch : p.activity.wakes.countP (· ≤ m.now) + 1 = b.wakes.countP (· ≤ m.now) :=
        ih (ha.branch hmem) (hstill b hmem h.stepped.not_hasEnded) hsc
      have hset : (duesAll (fun u => some u.wakes) (a.branches.set i p.activity)).countP (· ≤ m.now) +
          b.wakes.countP (· ≤ m.now) = (duesAll (fun u => some u.wakes) a.branches).countP (· ≤ m.now) +
            p.activity.wakes.countP (· ≤ m.now) := countP_duesAll_set hb p.activity (· ≤ m.now)
      rw [wakes_eq, wakes_eq a]
      simp only [hp]
      omega

end Steps

end StageTree.Activity
