import StageTree.Proofs.Run.Blame
import StageTree.Proofs.Run.Fates
import StageTree.Proofs.Timed.Length

/-! Runs in virtual time whose units follow scripts, as long as no two waits are over at the same instant.
What becomes of the stages of such a run was settled at its beginning, by recursion on the stage tree, and
every move leaves it as it is: whatever goes on first at an instant, whichever groups are cancelled in it. -/

namespace StageTree.Timed

/-- A run none or only one of whose waits is over. -/
def Untied {W U : Type} (s : Setting W U) (t : Timed W U) : Prop :=
  (t.waits s).countP (· ≤ t.run.now) ≤ 1

instance {W U : Type} (s : Setting W U) (t : Timed W U) : Decidable (t.Untied s) :=
  inferInstanceAs (Decidable (_ ≤ _))

variable {scriptOf : String → Script} {vars : Bindings} {t t' : Timed Journal Asleep} {p : Pipeline}
  {w : Journal} {fates : List Fate} {deadline : Option Nat} {move : Move} {a : Activity Asleep}

theorem waits_eq (ha : t.run.present = some a) :
    t.waits (.scripted scriptOf vars) = a.wakes ++ t.cancels.map Prod.fst := by
  rw [waits, ha]
  rfl

/-- A run whose end is the one that was to be expected. -/
structure Foreseen (scriptOf : String → Script) (vars : Bindings) (p : Pipeline) (fates : List Fate)
    (deadline : Option Nat) (t : Timed Journal Asleep) : Prop where
  sound : t.Sound p
  trees : ∀ a, t.run.present = some a →
    a.Closed ∧ a.Alert ∧ a.Dated scriptOf vars t.run.now ∧ a.Unrivalled t.run.now
  quenched : t.run.cancelled.isSome = true → ∀ a, t.run.present = some a → a.Quenched
  /-- Stages start before anything else happens, unless they are refused. -/
  started : t.run.cancelled = none → ∀ a, t.run.present = some a →
    a.phase = .waiting ∨ a.Started ∨ a.Lasts t.run.now (t.run.now + 1)
  /-- A wait that is over comes before anything else happens. -/
  waits : (∀ d ∈ t.waits (.scripted scriptOf vars), t.run.now < d) ∨
    t.run.cancelled = none ∧ (∀ d ∈ t.waits (.scripted scriptOf vars), t.run.now ≤ d) ∧
      ∀ a, t.run.present = some a → a.Still ∨ t.run.now = 0 ∧ a.phase = .waiting
  /-- No cancellation is still to come at the first instant. -/
  later : deadline ≠ some 0 ∨ t.run.cancelled.isSome = true
  live : t.run.cancelled = none → deadline = t.cancels.head?.map Prod.fst
  cancelled : t.run.cancelled.isSome = true → deadline = some t.run.now
  fates : t.run.fates scriptOf vars deadline = fates
  blamed : t.run.cancelled = none → t.run.Blamed
  reason : t.run.cancelled = none → t.run.reason scriptOf vars = p.failure? scriptOf vars

theorem foreseen_begin (hp : p.Proper) (w : Journal) {cancels : List (Nat × String)}
    (hd : (cancelsInOrder cancels).head?.map Prod.fst = deadline) (hlater : deadline ≠ some 0) :
    (begin p w cancels).Foreseen scriptOf vars p (p.fates scriptOf vars deadline) deadline := by
  obtain ⟨st, future, _, e⟩ := Run.exists_begin_eq (U := Asleep) hp w
  have hpresent {a : Activity Asleep} (ha : (Run.begin p w).present = some a) : a = .ofStage st := by
    rw [e] at ha
    exact (Option.some.inj ha).symm
  have hlive : (Run.begin p w : Run Journal Asleep).cancelled = none := by rw [e]
  have hnow : (Run.begin p w : Run Journal Asleep).now = 0 := by rw [e]
  exact
    { sound := sound_begin hp w cancels
      trees := fun a ha => by
        obtain rfl := hpresent ha
        exact ⟨Activity.closed_ofStage st, Activity.alert_ofStage st, Activity.dated_ofStage _ st,
          Activity.unrivalled_ofStage _ st⟩
      quenched := fun hc => by simp [begin, hlive] at hc
      started := fun _ a ha => .inl (by rw [hpresent ha]; rfl)
      waits := .inr ⟨hlive, fun d _ => by simp [begin, hnow], fun a ha =>
        .inr ⟨hnow, by rw [hpresent ha]; rfl⟩⟩
      later := .inl hlater
      live := fun _ => hd.symm
      cancelled := fun hc => by simp [begin, hlive] at hc
      fates := Run.fates_begin hp w _
      blamed := fun _ => Run.blamed_begin p w
      reason := fun _ => Run.reason_begin hp w }

namespace Foreseen

/-- The deadline is not over. -/
theorem le_deadline (h : t.Foreseen scriptOf vars p fates deadline) : ∀ d ∈ deadline, t.run.now ≤ d := by
  intro d hd
  cases hc : t.run.cancelled with
  | some reason =>
    rw [h.cancelled (by simp [hc])] at hd
    exact Nat.le_of_eq (Option.some.inj hd)
  | none =>
    rw [h.live hc] at hd
    obtain ⟨c, hcm, rfl⟩ := Option.map_eq_some_iff.1 hd
    have hm : c.1 ∈ t.waits (.scripted scriptOf vars) :=
      List.mem_append_right _ (List.mem_map_of_mem (List.mem_of_mem_head? hcm))
    rcases h.waits with hw | ⟨_, hw, _⟩
    · exact Nat.le_of_lt (hw _ hm)
    · exact hw _ hm

theorem lasting (h : t.Foreseen scriptOf vars p fates deadline) (hl : ∀ st ∈ p.stages, st.Lasting scriptOf)
    (ha : t.run.present = some a) : a.stage.Lasting scriptOf :=
  hl _ (by simp [← h.sound.run.stages, ha])

/-- As long as the run is not cancelled, the tree at work is orderly. -/
theorem orderly (h : t.Foreseen scriptOf vars p fates deadline) (hc : t.run.cancelled = none)
    (ha : t.run.present = some a) : a.Orderly t.run.now := by
  rcases h.started hc a ha with hp | hst | hlasts
  · exact .inl (.waiting hp (Nat.le_refl _))
  · refine .inr ⟨hst, ?_⟩
    rcases h.waits with hw | ⟨_, _, hw⟩
    · exact .inl fun d hd => hw d (by rw [waits_eq ha]; exact List.mem_append_left _ hd)
    · exact .inr ((hw a ha).resolve_right fun hwait => hst.phase_ne hwait.2)
  · exact .inl hlasts

/-- A cancellation that is still to come is not due at the first instant. -/
theorem cancelDue_eq_false (h : t.Foreseen scriptOf vars p fates deadline) (hc : t.run.cancelled = none)
    (hnow : t.run.now = 0) : t.cancelDue = false := by
  have hne : deadline ≠ some 0 := h.later.resolve_right (by simp [hc])
  rw [h.live hc] at hne
  rw [cancelDue, hnow]
  cases hhead : t.cancels.head? with
  | none => rfl
  | some c =>
    have hpos : c.1 ≠ 0 := fun e => hne (by rw [hhead, Option.map_some, e])
    simpa using hpos

/-- When a stage goes on, either no wait is over or the run has stood still. -/
theorem lt_waits_or (h : t.Foreseen scriptOf vars p fates deadline) (ha : t.run.present = some a) :
    (∀ d ∈ t.waits (.scripted scriptOf vars), t.run.now < d) ∨ t.run.cancelled = none ∧ a.Still := by
  rcases h.waits with hw | ⟨hc, _, hw⟩
  · exact .inl hw
  · rcases hw a ha with hstill | ⟨hnow, hp⟩
    · exact .inr ⟨hc, hstill⟩
    · refine .inl fun d hd => ?_
      have hsound := (h.sound.run.present a ha).1
      rw [waits_eq ha, Activity.wakes_eq, hp, hsound.here.single (hsound.here.waiting hp)] at hd
      obtain ⟨c, hcm, rfl⟩ := List.mem_map.1 hd
      exact h.sound.lt_of_mem_cancels (h.cancelDue_eq_false hc hnow) hcm

section Stage

variable {q : Played Journal Asleep} {x : Act} {draw : Nat}

/-- What becomes of the tree at work stays the same as a stage goes on. -/
theorem predict_eq (h : t.Foreseen scriptOf vars p fates deadline) (hl : ∀ st ∈ p.stages, st.Lasting scriptOf)
    (ha : t.run.present = some a)
    (hq : Activity.Timely (.scripted scriptOf vars) x a (t.run.moment a draw) t.run.world q) :
    q.activity.predict scriptOf vars t.run.now deadline = a.predict scriptOf vars t.run.now deadline := by
  have hsound := (h.sound.run.present a ha).1
  obtain ⟨_, hal, hd, _⟩ := h.trees a ha
  have hwaits := h.lt_waits_or ha
  cases hc : t.run.cancelled with
  | none =>
    refine hq.predict_of_orderly hsound hal (h.lasting hl ha) hd hc (h.orderly hc ha) h.le_deadline ?_
    intro hx d hdd
    rcases hwaits with hw | ⟨_, hstill⟩
    · rw [h.live hc] at hdd
      obtain ⟨c, hcm, rfl⟩ := Option.map_eq_some_iff.1 hdd
      exact hw _ (List.mem_append_right _ (List.mem_map_of_mem (List.mem_of_mem_head? hcm)))
    · rw [hx] at hq
      cases hq.stepped.look_of_still hstill
  | some reason =>
    have hw := hwaits.resolve_right fun hn => by simp [hc] at hn
    have hsome : t.run.cancelled.isSome = true := by simp [hc]
    refine hq.predict_of_started hsound hal (h.lasting hl ha) hd (.inr ⟨hsome, h.quenched hsome a ha⟩)
      (.inl fun d hdw => ?_) h.le_deadline fun _ => h.cancelled hsome
    exact hw d (by rw [waits_eq ha]; exact List.mem_append_left _ hdw)

/-- After a stage went on no wait is over. -/
theorem lt_waits (h : t.Foreseen scriptOf vars p fates deadline) (hl : ∀ st ∈ p.stages, st.Lasting scriptOf)
    (hu : t.Untied (.scripted scriptOf vars)) (ha : t.run.present = some a)
    (hq : Activity.Timely (.scripted scriptOf vars) x a (t.run.moment a draw) t.run.world q) :
    ∀ d ∈ q.activity.wakes ++ t.cancels.map Prod.fst, t.run.now < d := by
  have hsound := (h.sound.run.present a ha).1
  rcases h.lt_waits_or ha with hw | ⟨hc, hstill⟩
  · rw [waits_eq ha] at hw
    intro d hd
    rcases List.mem_append.1 hd with hd | hd
    · exact hq.stepped.lt_wakes hsound (h.lasting hl ha) (fun d hd => hw d (List.mem_append_left _ hd)) d hd
    · exact hw d (List.mem_append_right _ hd)
  · have hone : q.activity.wakes.countP (· ≤ t.run.now) + 1 = a.wakes.countP (· ≤ t.run.now) :=
      hq.countP_wakes hsound hstill hc
    rw [Untied, waits_eq ha, List.countP_append] at hu
    have hzero : (q.activity.wakes ++ t.cancels.map Prod.fst).countP (· ≤ t.run.now) = 0 := by
      rw [List.countP_append]
      omega
    intro d hd
    simpa using List.countP_eq_zero.1 hzero d hd

/-- After a stage went on the tree at work is as it should be. -/
theorem trees_take (h : t.Foreseen scriptOf vars p fates deadline) (hl : ∀ st ∈ p.stages, st.Lasting scriptOf)
    (ha : t.run.present = some a)
    (hq : Activity.Timely (.scripted scriptOf vars) x a (t.run.moment a draw) t.run.world q) :
    (q.activity.Closed ∧ q.activity.Alert ∧ q.activity.Dated scriptOf vars t.run.now ∧
      q.activity.Unrivalled t.run.now) ∧
      (t.run.cancelled = none → q.activity.phase = .waiting ∨ q.activity.Started ∨
        q.activity.Lasts t.run.now (t.run.now + 1)) := by
  have hsound := (h.sound.run.present a ha).1
  have hlast := h.lasting hl ha
  obtain ⟨hc, hal, hd, hu⟩ := h.trees a ha
  refine ⟨⟨hq.stepped.closed hsound hc, hq.stepped.alert hal, hq.stepped.dated hsound hlast hd,
    hq.unrivalled hsound hlast hd hu⟩, fun hcancelled => ?_⟩
  rcases h.orderly hcancelled ha with hlasts | ⟨hst, _⟩
  · exact .inr (.inr (hq.lasts hsound hlast hd hcancelled hlasts).2)
  · exact .inr (.inl (hq.stepped.started hst).2)

theorem take (h : t.Foreseen scriptOf vars p fates deadline) (hp : p.Proper)
    (hl : ∀ st ∈ p.stages, st.Lasting scriptOf) (hu : t.Untied (.scripted scriptOf vars)) {position : List Nat}
    (ha : t.run.present = some a)
    (hx : Activity.Able (Setting.scripted scriptOf vars).runner.due t.run.now t.run.cancelled a position x)
    (hq : a.step (.scripted scriptOf vars) x position (t.run.moment a draw) t.run.world = some q) :
    (⟨t.run.take q, t.cancels⟩ : Timed Journal Asleep).Foreseen scriptOf vars p fates deadline := by
  have htimely := h.sound.timely ha hx hq
  have hstepped := htimely.stepped
  have hsound := (h.sound.run.present a ha).1
  have hlast := h.lasting hl ha
  obtain ⟨htrees, hstarted⟩ := h.trees_take hl ha htimely
  have hwaits := h.lt_waits hl hu ha htimely
  have hms : ∀ ms lines error, q.activity.phase = .ended ms lines error → ms = t.run.now :=
    fun ms lines error he => hstepped.ms_of_phase hlast he
  have hfates := (Run.fates_take ha (h.predict_eq hl ha htimely) hms).trans h.fates
  have hmoved : Run.Moved (.scripted scriptOf vars) t.run (.stage position x draw) (t.run.take q) := .stage ha hq
  have hblamed (hc : t.run.cancelled = none) : (t.run.take q).Blamed :=
    (h.blamed hc).moved h.sound.run (Script.honest scriptOf) (by simp) hmoved
  have hreason (hc : t.run.cancelled = none) :
      (t.run.take q).reason scriptOf vars = p.failure? scriptOf vars := by
    obtain ⟨_, hal, hd, hr⟩ := h.trees a ha
    have hbl := (h.blamed hc).trees a (by simp [ha])
    refine (Run.reason_take ha ?_ ?_ hms).trans (h.reason hc)
    · exact htimely.predict_of_orderly hsound hal hlast hd hc (h.orderly hc ha) (by simp) (by simp)
    · exact htimely.reason_eq hsound hal hlast hd hc hbl hr (h.orderly hc ha)
  have hsound' : (⟨t.run.take q, t.cancels⟩ : Timed Journal Asleep).Sound p :=
    ⟨h.sound.run.take hp ha hstepped, h.sound.sorted⟩
  have htaking := Run.taking_take t.run q
  generalize t.run.take q = r at htaking hfates hblamed hreason hsound'
  cases htaking with
  | on hn =>
    exact
      { sound := hsound'
        trees := fun b hb => Option.some.inj hb ▸ htrees
        quenched := fun hc b hb => Option.some.inj hb ▸ hstepped.quenched hc (h.quenched hc a ha)
        started := fun hc b hb => Option.some.inj hb ▸ hstarted hc
        waits := .inl hwaits
        later := h.later
        live := h.live
        cancelled := h.cancelled
        fates := hfates
        blamed := hblamed
        reason := hreason }
  | @next ms lines st future he hf =>
    exact
      { sound := hsound'
        trees := fun b hb => by
          obtain rfl := Option.some.inj hb
          exact ⟨Activity.closed_ofStage st, Activity.alert_ofStage st, Activity.dated_ofStage _ st,
            Activity.unrivalled_ofStage _ st⟩
        quenched := fun _ b hb => by
          obtain rfl := Option.some.inj hb
          exact .of_phase (by simp [Activity.ofStage])
        started := fun _ b hb => .inl (Option.some.inj hb ▸ rfl)
        waits := .inl fun d hd => hwaits d (List.mem_append_right _ hd)
        later := h.later
        live := h.live
        cancelled := h.cancelled
        fates := hfates
        blamed := hblamed
        reason := hreason }
  | completed | failed =>
    exact
      { sound := hsound'
        trees := by simp
        quenched := by simp
        started := by simp
        waits := .inl fun d hd => hwaits d (List.mem_append_right _ hd)
        later := h.later
        live := h.live
        cancelled := h.cancelled
        fates := hfates
        blamed := hblamed
        reason := hreason }

end Stage

/-- A cancellation that comes finds a run that stands still, or that is about to begin. -/
theorem cancel (h : t.Foreseen scriptOf vars p fates deadline) (hl : ∀ st ∈ p.stages, st.Lasting scriptOf)
    (hu : t.Untied (.scripted scriptOf vars)) {ms : Nat} {reason : String} {rest : List (Nat × String)}
    (hv : t.run.verdict = none) (hcs : t.cancels = (ms, reason) :: rest) (hms : ms ≤ t.run.now) :
    (⟨t.run.cancel reason, rest⟩ : Timed Journal Asleep).Foreseen scriptOf vars p fates deadline := by
  obtain ⟨a, ha⟩ := Option.isSome_iff_exists.1 (h.sound.run.going.1 hv)
  have hm : ms ∈ t.waits (.scripted scriptOf vars) := by
    rw [waits_eq ha, hcs]
    simp
  obtain ⟨hc, hle, _⟩ := h.waits.resolve_left fun hw => Nat.not_lt_of_le hms (hw ms hm)
  have hnow : ms = t.run.now := Nat.le_antisymm hms (hle ms hm)
  have hdead : deadline = some t.run.now := by rw [h.live hc, hcs, ← hnow]; rfl
  have hsound := (h.sound.run.present a ha).1
  obtain ⟨hclosed, hal, hd, hr⟩ := h.trees a ha
  have e : t.run.cancel reason = { t.run with cancelled := some reason, present := some (a.cancel reason) } := by
    rw [Run.cancel, hc, ha, Option.map_some]
  -- the only wait that is over is the one of the cancellation
  rw [Untied, waits_eq ha, hcs, List.countP_append, List.map_cons, List.countP_cons] at hu
  simp only [hms, decide_true, if_true] at hu
  have hzero : (a.wakes ++ rest.map Prod.fst).countP (· ≤ t.run.now) = 0 := by
    rw [List.countP_append]
    omega
  have hsound' : (⟨t.run.cancel reason, rest⟩ : Timed Journal Asleep).Sound p :=
    ⟨h.sound.run.cancel reason, (List.pairwise_cons.1 (hcs ▸ h.sound.sorted)).2⟩
  have hfates : (t.run.cancel reason).fates scriptOf vars deadline = fates := by
    rw [← h.fates, hdead, e]
    simp only [Run.fates, ha, Activity.predict_cancel hsound hal (h.lasting hl ha) hd reason]
  rw [e] at hsound' hfates ⊢
  exact
    { sound := hsound'
      trees := fun b hb => by
        obtain rfl := Option.some.inj hb
        exact ⟨hclosed.cancel hsound reason, hal.cancel reason, hd.cancel reason, hr.cancel reason⟩
      quenched := fun _ b hb => Option.some.inj hb ▸ hclosed.quenched_cancel hsound reason
      started := by simp
      waits := .inl fun d hd => by
        rw [waits_eq rfl, Activity.wakes, Activity.dues_cancel] at hd
        simpa using List.countP_eq_zero.1 hzero d hd
      later := .inr rfl
      live := by simp
      cancelled := fun _ => hdead
      fates := hfates
      blamed := by simp
      reason := by simp }

/-- Time passes while the run stands still. -/
theorem tick (h : t.Foreseen scriptOf vars p fates deadline) {ms : Nat} (hv : t.run.verdict = none)
    (hb : ¬ t.Busy (.scripted scriptOf vars)) (hmin : (t.waits (.scripted scriptOf vars)).min? = some ms)
    (hlt : t.run.now < ms)
    (hu : (⟨{ t.run with now := ms }, t.cancels⟩ : Timed Journal Asleep).Untied (.scripted scriptOf vars)) :
    (⟨{ t.run with now := ms }, t.cancels⟩ : Timed Journal Asleep).Foreseen scriptOf vars p fates deadline := by
  obtain ⟨a, ha⟩ := Option.isSome_iff_exists.1 (h.sound.run.going.1 hv)
  obtain ⟨hsound, hn⟩ := h.sound.run.present a ha
  obtain ⟨hclosed, hal, hd, hr⟩ := h.trees a ha
  have hc : t.run.cancelled = none := by
    by_contra hc
    have hsome := Option.isSome_iff_ne_none.2 hc
    obtain ⟨position, x, hx⟩ : ∃ position x, Activity.Able (Setting.scripted scriptOf vars).runner.due t.run.now
        t.run.cancelled a position x := (h.quenched hsome a ha).able hsound hsome hn
    exact hb ⟨a, position, x, ha, hx⟩
  have hstill : a.Still :=
    Activity.still_of_not_able hsound hclosed hn fun position x hx => hb ⟨a, position, x, ha, hx⟩
  have hle : ∀ d ∈ t.waits (.scripted scriptOf vars), ms ≤ d := (List.min?_eq_some_iff.1 hmin).2
  have hwakes : ∀ d ∈ a.wakes, ms ≤ d := fun d hdw => hle d (by rw [waits_eq ha]; exact List.mem_append_left _ hdw)
  have hone : a.wakes.countP (· ≤ ms) ≤ 1 := by
    have hall : (t.waits (.scripted scriptOf vars)).countP (· ≤ ms) ≤ 1 := hu
    rw [waits_eq ha, List.countP_append] at hall
    exact Nat.le_trans (Nat.le_add_right _ _) hall
  have hpast (deadline : Option Nat) : Activity.predictAll scriptOf vars ms t.run.past deadline =
      Activity.predictAll scriptOf vars t.run.now t.run.past deadline :=
    Activity.predictAll_of_hasEnded h.sound.run.past ms t.run.now deadline deadline
  exact
    { sound := ⟨{ h.sound.run with }, h.sound.sorted⟩
      trees := fun b hb => by
        obtain rfl := Option.some.inj (ha.symm.trans hb)
        exact ⟨hclosed, hal, hstill.dated hsound hd (Nat.le_of_lt hlt) hwakes, hstill.unrivalled hsound hone⟩
      quenched := fun hsome => by simp [hc] at hsome
      started := fun _ b hb => Option.some.inj (ha.symm.trans hb) ▸ .inr (.inl hstill.started)
      waits := .inr ⟨hc, hle, fun b hb => Option.some.inj (ha.symm.trans hb) ▸ .inl hstill⟩
      later := h.later
      live := h.live
      cancelled := fun hsome => by simp [hc] at hsome
      fates := by
        rw [← h.fates]
        simp only [Run.fates, ha, hpast, hstill.predict_eq hsound ms t.run.now]
      blamed := fun _ => ⟨(h.blamed hc).live, (h.blamed hc).trees⟩
      reason := fun _ => by
        rw [← h.reason hc]
        simp only [Run.reason, ha, hstill.predict_eq hsound ms t.run.now, hstill.reason_eq hsound ms t.run.now] }

theorem step (h : t.Foreseen scriptOf vars p fates deadline) (hp : p.Proper)
    (hl : ∀ st ∈ p.stages, st.Lasting scriptOf) (hu : t.Untied (.scripted scriptOf vars))
    (hu' : t'.Untied (.scripted scriptOf vars)) (hs : t.step (.scripted scriptOf vars) move = some t') :
    t'.Foreseen scriptOf vars p fates deadline := by
  obtain ⟨hv, hm⟩ := moved_of_step hs
  cases hm with
  | stage ha hx hq => exact h.take hp hl hu ha hx hq
  | cancel hcs hms => exact h.cancel hl hu hv hcs hms
  | tick hb _ hmin hlt => exact h.tick hv hb hmin hlt hu'

/-- A run stays what was to be expected as long as no two waits are over at the same instant. -/
theorem moved (h : t.Foreseen scriptOf vars p fates deadline) (hp : p.Proper)
    (hl : ∀ st ∈ p.stages, st.Lasting scriptOf) {moves : List Move}
    (hu : ∀ front, front <+: moves → ∀ t', t.moved (.scripted scriptOf vars) front = some t' →
      t'.Untied (.scripted scriptOf vars))
    (ht : t.moved (.scripted scriptOf vars) moves = some t') : t'.Foreseen scriptOf vars p fates deadline := by
  induction moves using List.reverseRecOn generalizing t' with
  | nil => exact Option.some.inj ht ▸ h
  | append_singleton moves move ih =>
    rw [moved_append, Option.bind_eq_some_iff] at ht
    obtain ⟨t₁, h₁, ht⟩ := ht
    have hstep : t₁.step (.scripted scriptOf vars) move = some t' := by simpa [Timed.moved] using ht
    have hprefix : moves <+: moves ++ [move] := List.prefix_append _ _
    refine (ih (fun front hf => hu front (hf.trans hprefix)) h₁).step hp hl (hu moves hprefix t₁ h₁) ?_ hstep
    exact hu _ (List.prefix_refl _) t' (by rw [moved_append, h₁]; exact ht)

end Foreseen

end StageTree.Timed
