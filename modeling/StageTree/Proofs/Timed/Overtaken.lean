import StageTree.Proofs.Activity.Opening
import StageTree.Proofs.Timed.Foreseen

/-! Runs that are cancelled at their first instant. The stages that go on before the cancellation comes have
started and not more; what becomes of the run then follows from which they are. -/

namespace StageTree

/-- The positions of the stages that go on before anything else happens. -/
def begunIn : List Move → List (List Nat)
  | .stage position _ _ :: moves => position :: begunIn moves
  | _ => []

/-- Where no stage goes on before the cancellation comes, the first one is refused. -/
theorem Pipeline.overtaken_of_not_begun {scriptOf : String → Script} {vars : Bindings} (p : Pipeline) :
    (p.overtaken fun _ => false) = p.fates scriptOf vars (some 0) := by
  rw [overtaken, fates]
  cases p.stages with
  | nil => rfl
  | cons st future =>
    have hfate : st.fate scriptOf vars 0 (some 0) = .refused st.name 0 := Stage.fate_of_le rfl
    simp [Stage.inTurn, hfate, Stage.overtaken_of_not_begun, Fate.refused]

namespace Timed

variable {scriptOf : String → Script} {vars : Bindings} {t t' : Timed Journal Asleep} {p : Pipeline}
  {w : Journal} {begun : List Nat → Bool} {deadline : Option Nat} {move : Move} {a : Activity Asleep}

/-- A run at its first instant, in which the stages at some positions have gone on, and at which a cancellation
is still to come. -/
structure Opened (scriptOf : String → Script) (vars : Bindings) (p : Pipeline) (begun : List Nat → Bool)
    (t : Timed Journal Asleep) : Prop where
  sound : t.Sound p
  now : t.run.now = 0
  live : t.run.cancelled = none
  past : t.run.past = []
  due : ∃ reason rest, t.cancels = (0, reason) :: rest
  tree : ∃ a, t.run.present = some a ∧ p.stages.head? = some a.stage ∧ a.Opening 0 begun ∧
    a.Closed ∧ a.Alert ∧ a.Dated scriptOf vars 0 ∧ a.Unrivalled 0

theorem opened_begin (hp : p.Proper) (w : Journal) {cancels : List (Nat × String)}
    (hd : (cancelsInOrder cancels).head?.map Prod.fst = some 0) :
    (begin p w cancels).Opened scriptOf vars p fun _ => false := by
  obtain ⟨st, future, hs, e⟩ := Run.exists_begin_eq (U := Asleep) hp w
  obtain ⟨⟨ms, reason⟩, hhead, rfl⟩ := Option.map_eq_some_iff.1 hd
  exact
    { sound := sound_begin hp w cancels
      now := by rw [begin, e]
      live := by rw [begin, e]
      past := by rw [begin, e]
      due := ⟨reason, _, List.eq_cons_of_mem_head? hhead⟩
      tree := ⟨.ofStage st, by rw [begin, e], by rw [hs]; rfl, .waiting rfl fun _ => rfl, Activity.closed_ofStage st,
        Activity.alert_ofStage st, Activity.dated_ofStage _ st, Activity.unrivalled_ofStage _ st⟩ }

namespace Opened

/-- The stage at work is the first one. -/
theorem lasting (h : p.stages.head? = some a.stage) (hl : ∀ st ∈ p.stages, st.Lasting scriptOf) :
    a.stage.Lasting scriptOf :=
  hl _ (List.mem_of_head? h)

theorem take (h : t.Opened scriptOf vars p begun) (hp : p.Proper) (hl : ∀ st ∈ p.stages, st.Lasting scriptOf)
    {q : Played Journal Asleep} {x : Act} {position : List Nat} {draw : Nat} (ha : t.run.present = some a)
    (hx : Activity.Able (Setting.scripted scriptOf vars).runner.due t.run.now t.run.cancelled a position x)
    (hq : a.step (.scripted scriptOf vars) x position (t.run.moment a draw) t.run.world = some q) :
    (⟨t.run.take q, t.cancels⟩ : Timed Journal Asleep).Opened scriptOf vars p
      fun other => begun other || other == position := by
  obtain ⟨b, hb, hfirst, hopening, hclosed, halert, hdated, hrivals⟩ := h.tree
  obtain rfl := Option.some.inj (ha.symm.trans hb)
  have hsound := (h.sound.run.present a ha).1
  have hlast := lasting hfirst hl
  have htimely := h.sound.timely ha hx hq
  have hstepped := htimely.stepped
  have hnow : (t.run.moment a draw).now = 0 := h.now
  have hopening' : q.activity.Opening 0 fun other => begun other || other == position := by
    rw [← hnow] at hopening ⊢
    exact hopening.step hsound hlast h.live hx hq
  have hdated' := hstepped.dated hsound hlast (hnow ▸ hdated)
  have hrivals' := htimely.unrivalled hsound hlast (hnow ▸ hdated) (hnow ▸ hrivals)
  rw [hnow] at hdated' hrivals'
  have hsound' : (⟨t.run.take q, t.cancels⟩ : Timed Journal Asleep).Sound p :=
    ⟨h.sound.run.take hp ha hstepped, h.sound.sorted⟩
  have htaking := Run.taking_take t.run q
  generalize t.run.take q = r at htaking hsound'
  have hended {ms : Nat} {lines : Option (List String)} {error : Option RunError}
      (he : q.activity.phase = .ended ms lines error) : False := by
    have hno := hopening'.hasEnded_eq
    rw [Activity.hasEnded_of_phase he] at hno
    cases hno
  cases htaking with
  | on hn =>
    exact
      { sound := hsound'
        now := h.now
        live := h.live
        past := h.past
        due := h.due
        tree := ⟨q.activity, rfl, hstepped.stage_eq ▸ hfirst, hopening', hstepped.closed hsound hclosed,
          hstepped.alert halert, hdated', hrivals'⟩ }
  | next he | completed he | failed he => exact (hended he).elim

/-- The cancellation comes, and then it is known what becomes of the run. -/
theorem cancel (h : t.Opened scriptOf vars p begun) (hl : ∀ st ∈ p.stages, st.Lasting scriptOf)
    (hu : t.Untied (.scripted scriptOf vars)) {ms : Nat} {reason : String} {rest : List (Nat × String)}
    (hcs : t.cancels = (ms, reason) :: rest) :
    (⟨t.run.cancel reason, rest⟩ : Timed Journal Asleep).Foreseen scriptOf vars p (p.overtaken begun)
      (some 0) := by
  obtain ⟨a, ha, hfirst, hopening, hclosed, halert, hdated, hrivals⟩ := h.tree
  have hsound := (h.sound.run.present a ha).1
  have hwakes := hopening.lt_wakes hsound
  obtain ⟨reason', rest', hcs'⟩ := h.due
  obtain ⟨e, rfl⟩ := List.cons.inj (hcs.symm.trans hcs')
  obtain ⟨rfl, rfl⟩ := Prod.mk.inj e
  -- no other wait is over
  have hrest : ∀ d ∈ rest.map Prod.fst, 0 < d := by
    rw [Untied, waits_eq ha, hcs, h.now, List.countP_append, List.map_cons, List.countP_cons] at hu
    simp only [Nat.le_refl, decide_true, if_true] at hu
    have hzero : (rest.map Prod.fst).countP (· ≤ 0) = 0 := by omega
    intro d hd
    simpa [Nat.pos_iff_ne_zero] using List.countP_eq_zero.1 hzero d hd
  have e : t.run.cancel reason = { t.run with cancelled := some reason, present := some (a.cancel reason) } := by
    rw [Run.cancel, h.live, ha, Option.map_some]
  have hsound' : (⟨t.run.cancel reason, rest⟩ : Timed Journal Asleep).Sound p :=
    ⟨h.sound.run.cancel reason, (List.pairwise_cons.1 (hcs ▸ h.sound.sorted)).2⟩
  have hfate : (a.cancel reason).predict scriptOf vars 0 (some 0) = a.stage.overtaken 0 begun := by
    rw [Activity.predict_cancel hsound halert (lasting hfirst hl) hdated reason, hopening.predict_eq hsound]
  rw [e] at hsound' ⊢
  exact
    { sound := hsound'
      trees := fun b hb => by
        obtain rfl := Option.some.inj hb
        rw [h.now]
        exact ⟨hclosed.cancel hsound reason, halert.cancel reason, hdated.cancel reason, hrivals.cancel reason⟩
      quenched := fun _ b hb => Option.some.inj hb ▸ hclosed.quenched_cancel hsound reason
      started := by simp
      waits := .inl fun d hd => by
        rw [waits_eq rfl, Activity.wakes, Activity.dues_cancel] at hd
        rw [h.now]
        exact (List.mem_append.1 hd).elim (hwakes d) (hrest d)
      later := .inr rfl
      live := by simp
      cancelled := fun _ => by rw [h.now]
      fates := by
        simp only [Run.fates, h.past, h.now, hfate, Pipeline.overtaken, hfirst, Stage.overtaken_status]
        rfl
      blamed := by simp
      reason := by simp }

/-- Once such a run is over, the cancellation has come, and what was known then holds. -/
theorem foreseen_of_over (h : t.Opened scriptOf vars p begun) (hp : p.Proper)
    (hl : ∀ st ∈ p.stages, st.Lasting scriptOf) {moves : List Move}
    (hu : ∀ front, front <+: moves → ∀ t', t.moved (.scripted scriptOf vars) front = some t' →
      t'.Untied (.scripted scriptOf vars))
    (ht : t.moved (.scripted scriptOf vars) moves = some t') (hover : t'.run.verdict.isSome = true) :
    t'.Foreseen scriptOf vars p (p.overtaken fun position => begun position || (begunIn moves).contains position)
      (some 0) := by
  induction moves generalizing t begun with
  | nil =>
    obtain rfl := Option.some.inj ht
    obtain ⟨a, ha, _⟩ := h.tree
    rw [h.sound.run.going.2 (by simp [ha])] at hover
    cases hover
  | cons move moves ih =>
    obtain ⟨t₁, h₁, ht⟩ := Option.bind_eq_some_iff.1 (by simpa [Timed.moved] using ht)
    have hu' : ∀ front, front <+: moves → ∀ t', t₁.moved (.scripted scriptOf vars) front = some t' →
        t'.Untied (.scripted scriptOf vars) := fun front hf t' ht' =>
      hu (move :: front) (List.cons_prefix_cons.2 ⟨rfl, hf⟩) t' (by simpa [Timed.moved, h₁] using ht')
    cases (moved_of_step h₁).2 with
    | @stage a q position x draw ha hx hq =>
      have hafter := ih (h.take hp hl ha hx hq) hu' ht
      simpa only [begunIn, List.contains_cons, Bool.or_assoc] using hafter
    | cancel hcs hms =>
      have hafter := (h.cancel hl (hu [] (List.nil_prefix) t rfl) hcs).moved hp hl hu' ht
      simpa [begunIn] using hafter
    | tick hb hc =>
      obtain ⟨reason, rest, hcs⟩ := h.due
      simp [cancelDue, hcs] at hc

end Opened

end Timed

end StageTree
