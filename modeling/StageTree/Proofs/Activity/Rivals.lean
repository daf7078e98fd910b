import StageTree.Proofs.Activity.Foresight

/-! Branches that come to their end at different instants. If no two waits are over at the same instant, no
two branches of a live group can be the next to be joined at it: of any two that are not joined one is busy
beyond the instant. -/

namespace StageTree.Activity

variable {scriptOf : String → Script} {vars : Bindings} {now : Nat} {a : Activity Asleep}
  {deadline : Option Nat}

/-- A live group at work of whose open branches at most one can end now. -/
def Solitary (now : Nat) (a : Activity Asleep) : Prop :=
  a.phase = .fanned → ∀ f, a.fan = some f → f.scope = none → ∀ i j b c, i ≠ j →
    a.branches[i]? = some b → a.branches[j]? = some c → f.hasJoined i = false → f.hasJoined j = false →
    b.Lasts now (now + 1) ∨ c.Lasts now (now + 1)

/-- A tree in which all groups are so. -/
abbrev Unrivalled (now : Nat) : Activity Asleep → Prop := Everywhere (Solitary now)

theorem unrivalled_ofStage (now : Nat) (s : Stage) : Unrivalled now (ofStage s) :=
  .mk (fun hp => by simp [ofStage] at hp) (by simp [ofStage])

theorem Unrivalled.cancel (h : a.Unrivalled now) (reason : String) : (a.cancel reason).Unrivalled now := by
  induction h with
  | @mk a here below ih =>
    rcases a.cancel_cases reason with e | ⟨join, hp, hf, e⟩
    · rw [e]
      exact .mk here below
    · rw [e]
      refine .mk (fun _ f hf' hs => ?_) fun b hb => ?_
      · obtain rfl := Option.some.inj hf'
        cases hs
      · obtain ⟨c, hc, rfl⟩ := List.mem_map.1 hb
        exact ih c hc

theorem unrivalled_of_hasEnded (ha : a.Sound) (he : a.hasEnded = true) : a.Unrivalled now := by
  refine (ha.hasEnded he).imp fun b hb hp => ?_
  simp [hasEnded, hp] at hb

/-- Where no more than one unit is over no two branches can end. -/
theorem Still.unrivalled (h : a.Still) (ha : a.Sound) (hone : a.wakes.countP (· ≤ now) ≤ 1) :
    a.Unrivalled now := by
  induction h with
  | working hp =>
    refine .mk (fun hp' => by simp [hp] at hp') fun b hb => ?_
    exact unrivalled_of_hasEnded (ha.branch hb) (ha.here.hasEnded_of_mem (by simp [hp]) hb)
  | @fanned a f hp hf hs hj hstill ih =>
    have stands {i : Nat} {b : Activity Asleep} (hb : a.branches[i]? = some b) (hn : f.hasJoined i = false) :
        b.Still :=
      hstill b (List.mem_of_getElem? hb) (hasEnded_eq_false_of_open hj hb hn)
    have lasts {b : Activity Asleep} (hb : b.Still) (hzero : b.wakes.countP (· ≤ now) = 0) :
        b.Lasts now (now + 1) := by
      refine hb.lasts fun d hd => ?_
      have hlt : now < d := by simpa using List.countP_eq_zero.1 hzero d hd
      exact hlt
    refine .mk (fun _ g hg _ i k b c hik hb hc hjb hjc => ?_) fun b hb => ?_
    · obtain rfl := Option.some.inj (hf.symm.trans hg)
      by_cases hzero : b.wakes.countP (· ≤ now) = 0
      · exact .inl (lasts (stands hb hjb) hzero)
      · refine .inr (lasts (stands hc hjc) ?_)
        by_contra hzero'
        have htwo := two_le_countP_duesAll hik hb hc (Nat.pos_of_ne_zero hzero) (Nat.pos_of_ne_zero hzero')
        rw [wakes_eq, hp] at hone
        exact absurd hone (Nat.not_le.2 htwo)
    · cases he : b.hasEnded with
      | true => exact unrivalled_of_hasEnded (ha.branch hb) he
      | false =>
        exact ih b hb he (ha.branch hb) (Nat.le_trans (wakes_sublist hp hb).countP_le hone)

/-- A tree whose stages only start, or in which all have started and at most one unit is over, or all of
those at work wait. -/
def Orderly (now : Nat) (a : Activity Asleep) : Prop :=
  a.Lasts now (now + 1) ∨ a.Started ∧ ((∀ d ∈ a.wakes, now < d) ∨ a.Still)

section Steps

variable {x : Act} {m : Moment} {w : Journal} {p : Played Journal Asleep}

/-- A branch that goes on in an orderly tree is orderly. -/
theorem Orderly.branch (h : a.Orderly now) (ha : a.Coherent) (hp : a.phase = .fanned) {f : Fan} {i : Nat}
    {b : Activity Asleep} (hf : a.fan = some f) (hb : a.branches[i]? = some b) (hn : b.hasEnded = false) :
    b.Orderly now := by
  have hmem := List.mem_of_getElem? hb
  rcases h with h | ⟨hst, hcalm⟩
  · exact .inl (h.branch hp hf hb (ha.not_hasJoined hf hb hn)).2
  · refine .inr ⟨hst.branch hp hmem, ?_⟩
    rcases hcalm with hcalm | hstill
    · exact .inl fun d hd => hcalm d (mem_wakes_of_branch hp hmem hd)
    · cases hstill with
      | working hp' => simp [hp] at hp'
      | fanned _ _ _ _ hstill => exact .inr (hstill b hmem hn)

/-- What becomes of an orderly tree stays the same as a stage goes on. -/
theorem Timely.predict_of_orderly (h : Timely (.scripted scriptOf vars) x a m w p) (ha : a.Sound)
    (hal : a.Alert) (hl : a.stage.Lasting scriptOf) (hd : a.Dated scriptOf vars m.now) (hm : m.scope = none)
    (ho : a.Orderly m.now) (hdead : ∀ d ∈ deadline, m.now ≤ d)
    (hstart : x = .start → ∀ d ∈ deadline, m.now < d) :
    p.activity.predict scriptOf vars m.now deadline = a.predict scriptOf vars m.now deadline := by
  rcases ho with hlasts | ⟨hst, hcalm⟩
  · exact h.predict_of_lasts ha hal hl hd hm hlasts (hstart (h.lasts ha hl hd hm hlasts).1)
  · exact h.predict_of_started ha hal hl hd (.inl hst) (hcalm.imp_right fun hs => ⟨hm, hs⟩) hdead (by simp [hm])

/-- An act leaves a group of whose open branches at most one can end. -/
theorem Acted.solitary (h : Acted (.scripted scriptOf vars) m w a x p) (ha : a.Coherent)
    (hu : a.Solitary m.now) : p.activity.Solitary m.now := by
  cases h with
  | refused | failed => exact fun hp => by simp at hp
  | @fanned stages =>
    intro _ f hf _ i j b c _ hb _ _ _
    obtain ⟨st, _, rfl⟩ := List.mem_map.1 (List.mem_of_getElem? hb)
    exact .inl (.waiting rfl (Nat.le_refl _))
  | begun _ _ _ ho | gathered _ _ _ _ _ _ _ ho => exact fun hp => absurd hp ho.phase_ne
  | looked hp ht => exact fun hp' => absurd hp' (ht.fits (ha.hasSteps_of_working hp)).2.2
  | @joined i ms f b lines error hp hf hb he hj hlen =>
    intro _ g hg hs k l c d hkl hc hdd hjc hjd
    obtain rfl := Option.some.inj hg
    have hcc : ¬ Join.cancels a.stage.failsFast f.scope (b.report i error) = true := fun hcc => by
      simp [Fan.joining, hcc] at hs
    have hbranches : a.joiningBranches f (b.report i error) = a.branches := by simp [joiningBranches, hcc]
    have hscope : f.scope = none := by simpa [Fan.joining, hcc] using hs
    simp only [hbranches] at hc hdd
    exact hu hp f hf hscope k l c d hkl hc hdd (Fan.Faithful.hasJoined_of_joining hjc)
      (Fan.Faithful.hasJoined_of_joining hjd)

/-- A step leaves a tree in which no two branches can end at the instant. -/
theorem Timely.unrivalled (h : Timely (.scripted scriptOf vars) x a m w p) (ha : a.Sound)
    (hl : a.stage.Lasting scriptOf) (hd : a.Dated scriptOf vars m.now) (hu : a.Unrivalled m.now) :
    p.activity.Unrivalled m.now := by
  induction h with
  | @here a m w p h hdue =>
    refine .mk (h.solitary ha.here hu.here) fun b hb => ?_
    rcases h.mem_branches hb with hb | ⟨c, hc, reason, rfl⟩ | ⟨_, _, st, _, rfl⟩
    · exact hu.branch hb
    · exact Unrivalled.cancel (hu.branch hc) reason
    · exact unrivalled_ofStage m.now st
  | @branch a b m w p f i hp hf hb h ih =>
    have hmem := List.mem_of_getElem? hb
    have hbl : b.stage.Lasting scriptOf := ha.here.branch_stage hl hmem
    refine .mk (fun _ g hg hs k l c d hkl hc hdd hjc hjd => ?_) fun c hc => ?_
    · obtain rfl := Option.some.inj (hf.symm.trans hg)
      have hafter (hlasts : b.Lasts m.now (m.now + 1)) : p.activity.Lasts m.now (m.now + 1) :=
        (h.lasts (ha.branch hmem) hbl (hd.branch hmem) hs hlasts).2
      rcases getElem?_set_cases hc with ⟨rfl, rfl⟩ | ⟨hki, hc⟩
      · rcases getElem?_set_cases hdd with ⟨rfl, _⟩ | ⟨_, hdd⟩
        · exact absurd rfl hkl
        · exact (hu.here hp f hf hs k l b d hkl hb hdd hjc hjd).imp_left hafter
      · rcases getElem?_set_cases hdd with ⟨hli, rfl⟩ | ⟨_, hdd⟩
        · exact (hu.here hp f hf hs k l c b hkl hc (hli ▸ hb) hjc hjd).imp_right hafter
        · exact hu.here hp f hf hs k l c d hkl hc hdd hjc hjd
    · rcases List.mem_or_eq_of_mem_set hc with hc | rfl
      · exact hu.branch hc
      · exact ih (ha.branch hmem) hbl (hd.branch hmem) (hu.branch hmem)

end Steps

end StageTree.Activity
