import StageTree.Proofs.Activity.Blame
import StageTree.Proofs.Activity.Rivals

/-! The error that a tree ends with if it is never cancelled from outside: that of the branch which fails
first, group by group, or that of the stage's own unit. It is known before, and stays the same as stages go
on. -/

namespace StageTree.Activity

variable (scriptOf : String → Script) (vars : Bindings) (now : Nat)

mutual

/-- The error that a stage at work ends with, from an instant on. -/
def reason : Activity Asleep → Option RunError
  | ⟨stage, _, phase, fan, branches⟩ =>
    match phase with
    | .waiting => stage.failure? scriptOf vars now
    | .working u => u.script.error? u.unit
    | .ended _ _ error => error
    | .fanned =>
      (fan.bind fun f => f.join.error).or <|
        (Fate.blame (predictAll scriptOf vars now branches none) (reasonAll branches)).or
          (if stage.hasSteps then (scriptOf stage.name).error? (.ofStage stage vars) else none)

def reasonAll : List (Activity Asleep) → List (Option RunError)
  | [] => []
  | a :: as => reason a :: reasonAll as

end

variable {scriptOf : String → Script} {vars : Bindings} {now : Nat} {a : Activity Asleep}

theorem reasonAll_eq (as : List (Activity Asleep)) :
    reasonAll scriptOf vars now as = as.map (reason scriptOf vars now) := by
  induction as with
  | nil => rfl
  | cons a as ih => rw [reasonAll, ih, List.map_cons]

theorem reason_waiting (hp : a.phase = .waiting) :
    a.reason scriptOf vars now = a.stage.failure? scriptOf vars now := by
  obtain ⟨stage, since, phase, fan, branches⟩ := a
  subst hp
  rfl

theorem reason_working {u : Asleep} (hp : a.phase = .working u) :
    a.reason scriptOf vars now = u.script.error? u.unit := by
  obtain ⟨stage, since, phase, fan, branches⟩ := a
  subst hp
  rfl

theorem reason_ended {ms : Nat} {lines : Option (List String)} {error : Option RunError}
    (hp : a.phase = .ended ms lines error) : a.reason scriptOf vars now = error := by
  obtain ⟨stage, since, phase, fan, branches⟩ := a
  subst hp
  rfl

theorem reason_fanned {f : Fan} (hp : a.phase = .fanned) (hf : a.fan = some f) :
    a.reason scriptOf vars now = f.join.error.or
      ((Fate.blame (predictAll scriptOf vars now a.branches none) (reasonAll scriptOf vars now a.branches)).or
        (if a.stage.hasSteps then (scriptOf a.stage.name).error? (.ofStage a.stage vars) else none)) := by
  obtain ⟨stage, since, phase, fan, branches⟩ := a
  subst hp hf
  rfl

@[simp] theorem reasonAll_ofStage (stages : List Stage) :
    reasonAll scriptOf vars now (stages.map ofStage) = Stage.failureAll scriptOf vars now stages := by
  rw [reasonAll_eq, Stage.failureAll_eq, List.map_map]
  exact List.map_congr_left fun st _ => reason_waiting rfl

/-! ### The branch to blame -/

theorem blame_eq (bs : List (Activity Asleep)) :
    Fate.blame (predictAll scriptOf vars now bs none) (reasonAll scriptOf vars now bs) =
      (bs.find? fun b => (b.predict scriptOf vars now none).status = .fail &&
        Fate.firstFailure? (predictAll scriptOf vars now bs none) =
          some (b.predict scriptOf vars now none).ends).bind (reason scriptOf vars now) := by
  rw [Fate.blame, reasonAll_eq]
  generalize Fate.firstFailure? (predictAll scriptOf vars now bs none) = first
  rw [predictAll_eq, List.zip_map', List.find?_map, Option.bind_map]
  rfl

theorem blame_eq_none {bs : List (Activity Asleep)}
    (h : ∀ b ∈ bs, (b.predict scriptOf vars now none).status ≠ .fail) :
    Fate.blame (predictAll scriptOf vars now bs none) (reasonAll scriptOf vars now bs) = none := by
  rw [blame_eq, List.find?_eq_none.2 fun b hb => by simp [h b hb]]
  rfl

/-- A branch is to blame if it fails and every other one that does so fails later. -/
theorem blame_eq_reason {bs : List (Activity Asleep)} {i : Nat} {b : Activity Asleep} (hb : bs[i]? = some b)
    (hfail : (b.predict scriptOf vars now none).status = .fail)
    (hlater : ∀ j c, j ≠ i → bs[j]? = some c → (c.predict scriptOf vars now none).status = .fail →
      (b.predict scriptOf vars now none).ends < (c.predict scriptOf vars now none).ends) :
    Fate.blame (predictAll scriptOf vars now bs none) (reasonAll scriptOf vars now bs) =
      b.reason scriptOf vars now := by
  have hfirst : Fate.firstFailure? (predictAll scriptOf vars now bs none) =
      some (b.predict scriptOf vars now none).ends := by
    rw [predictAll_eq]
    refine Fate.firstFailure?_eq_some.2 ⟨⟨_, List.mem_map_of_mem (List.mem_of_getElem? hb), hfail, rfl⟩, ?_⟩
    intro g hg hgfail
    obtain ⟨c, hc, rfl⟩ := List.mem_map.1 hg
    obtain ⟨j, hj⟩ := List.mem_iff_getElem?.1 hc
    by_cases hji : j = i
    · subst hji
      exact Nat.le_of_eq (Option.some.inj (hb.symm.trans hj) ▸ rfl)
    · exact Nat.le_of_lt (hlater j c hji hj hgfail)
  rw [blame_eq, hfirst]
  cases hfind : bs.find? fun c => (c.predict scriptOf vars now none).status = .fail &&
      some (b.predict scriptOf vars now none).ends = some (c.predict scriptOf vars now none).ends with
  | none =>
    have hno := List.find?_eq_none.1 hfind b (List.mem_of_getElem? hb)
    simp [hfail] at hno
  | some c =>
    have hc := List.find?_some hfind
    simp only [Bool.and_eq_true, decide_eq_true_eq, Option.some.injEq] at hc
    obtain ⟨j, hj⟩ := List.mem_iff_getElem?.1 (List.mem_of_find?_eq_some hfind)
    by_cases hji : j = i
    · subst hji
      rw [Option.some.inj (hb.symm.trans hj)]
      rfl
    · have hlt := hlater j c hji hj hc.1
      omega

/-- A group without an error is not cancelled where every cancellation has someone to blame. -/
theorem Blamed.scope_eq_none (h : a.Blamed) (ha : a.Coherent) {f : Fan} (hf : a.fan = some f)
    (hnone : f.join.error = none) : f.scope = none := by
  by_contra hs
  obtain ⟨_, r, hr, hfail⟩ := h.scope f hf (Option.isSome_iff_ne_none.2 hs)
  rw [ha.error_eq_none hf hnone hr] at hfail
  cases hfail

/-- The first failure that a group joins is its error. -/
theorem blame_of_join (ha : a.Sound) (hal : a.Alert) (hl : a.stage.Lasting scriptOf)
    (hd : a.Dated scriptOf vars now) (hbl : a.Blamed) (hu : a.Unrivalled now) (hp : a.phase = .fanned)
    {i ms : Nat} {f : Fan} {b : Activity Asleep} {lines : Option (List String)} {e : RunError}
    (hf : a.fan = some f) (hb : a.branches[i]? = some b) (he : b.phase = .ended ms lines (some e))
    (hj : f.hasJoined i = false) (hnone : f.join.error = none) :
    Fate.blame (predictAll scriptOf vars now a.branches none) (reasonAll scriptOf vars now a.branches) =
      some e := by
  have hs := hbl.scope_eq_none ha.here hf hnone
  have hms := hd.here.unjoined hp f i b ms lines (some e) hf hb he hj
  have hfailed : Status.ofError (some e) = .fail := by
    have hc := (hbl.branches i b hb (not_excused hf hs i)).here
    rw [isCancelled, error?_of_phase he, Option.any_some] at hc
    simp [Status.ofError, hc]
  rw [blame_eq_reason hb (by rw [predict_ended he]; exact hfailed), reason_ended he]
  intro j c hji hc hfail
  rw [predict_ended he, hms]
  cases hcj : f.hasJoined j with
  | true =>
    obtain ⟨hce, hr⟩ := ha.here.report_of_hasJoined hf hc hcj
    obtain ⟨ms', lines', error', hcp⟩ := hasEnded_iff.1 hce
    have hok : c.error? = none := ha.here.error_eq_none hf hnone hr
    rw [predict_ended hcp, ← error?_of_phase hcp, hok] at hfail
    cases hfail
  | false =>
    have hmem := List.mem_of_getElem? hc
    have hnot : ¬ b.Lasts now (now + 1) := fun hlasts => by
      cases hlasts with
      | waiting hp' | working hp' | fanned hp' => simp [he] at hp'
      | ended hp' hn =>
        obtain rfl := (Phase.ended.inj (he.symm.trans hp')).1
        omega
    have hlasts := (hu.here hp f hf hs i j b c (Ne.symm hji) hb hc hj hcj).resolve_left hnot
    exact hlasts.le_ends (ha.branch hmem) (hal.branch hmem)
      (ha.here.branch_stage hl hmem) (by simp)

/-- As time passes the error of a tree that stands still stays the same. -/
theorem Still.reason_eq (h : a.Still) (ha : a.Sound) (now now' : Nat) :
    a.reason scriptOf vars now = a.reason scriptOf vars now' := by
  induction h with
  | working hp => rw [reason_working hp, reason_working hp]
  | @fanned a f hp hf hs hj hstill ih =>
    have hpredict : predictAll scriptOf vars now a.branches none = predictAll scriptOf vars now' a.branches none := by
      rw [predictAll_eq, predictAll_eq]
      refine List.map_congr_left fun b hm => ?_
      cases he : b.hasEnded with
      | true => exact predict_of_hasEnded (ha.branch hm) he now now' none none
      | false => exact (hstill b hm he).predict_eq (ha.branch hm) now now' none
    have hreason : reasonAll scriptOf vars now a.branches = reasonAll scriptOf vars now' a.branches := by
      rw [reasonAll_eq, reasonAll_eq]
      refine List.map_congr_left fun b hm => ?_
      cases he : b.hasEnded with
      | true =>
        obtain ⟨ms, lines, error, hbp⟩ := hasEnded_iff.1 he
        rw [reason_ended hbp, reason_ended hbp]
      | false => exact ih b hm he (ha.branch hm)
    rw [reason_fanned hp hf, reason_fanned hp hf, hpredict, hreason]

section Steps

variable {x : Act} {m : Moment} {w : Journal} {p : Played Journal Asleep}

/-- A stage that goes on to its unit under a live scope ends with the error of the unit. -/
theorem Onward.reason_eq {stage : Stage} {since : Nat} {phase : Phase Asleep} {w' : Journal}
    {trace : List Entry} (h : Onward (.scripted scriptOf vars) m stage since w phase w' trace)
    (hl : stage.Lasting scriptOf) (hm : m.scope = none) (fan : Option Fan) (branches : List (Activity Asleep)) :
    reason scriptOf vars now ⟨stage, since, phase, fan, branches⟩ =
      if stage.hasSteps then (scriptOf stage.name).error? (.ofStage stage vars) else none := by
  rcases onward_cases hl.here h with ⟨hsteps, rfl⟩ | ⟨_, reason, hs, _⟩ | ⟨hsteps, _, rfl⟩
  · rw [reason_ended rfl, if_neg (by simp [hsteps])]
  · simp [hm] at hs
  · rw [reason_working rfl, if_pos hsteps]

/-- The error of a group that joins a branch is the one that it ends with, if it has one by then. -/
theorem reason_joining (ha : a.Sound) (hal : a.Alert) (hl : a.stage.Lasting scriptOf)
    (hd : a.Dated scriptOf vars now) (hbl : a.Blamed) (hu : a.Unrivalled now) (hp : a.phase = .fanned)
    {i ms : Nat} {f : Fan} {b : Activity Asleep} {lines : Option (List String)} {error : Option RunError}
    (hf : a.fan = some f) (hb : a.branches[i]? = some b) (he : b.phase = .ended ms lines error)
    (hj : f.hasJoined i = false) :
    match (f.joining a.stage.failsFast (b.report i error)).join.error with
    | some e => a.reason scriptOf vars now = some e
    | none => f.join.error = none ∧ error = none := by
  have hjoin : (f.joining a.stage.failsFast (b.report i error)).join.error =
      Join.firstError f.join.error error := rfl
  rw [hjoin, reason_fanned hp hf]
  cases hfe : f.join.error with
  | some e =>
    have hfailure := hbl.isFailure_of_error hf (ha.here.faithful f hf) hfe
    have hcancel : e.isCancellation = false := by simpa [RunError.isFailure] using hfailure
    cases error <;> simp [Join.firstError, hcancel]
  | none =>
    cases error with
    | none => exact ⟨rfl, rfl⟩
    | some e =>
      rw [blame_of_join ha hal hl hd hbl hu hp hf hb he hj hfe]
      rfl

/-- The error that a tree ends with stays the same as the stage at its top goes on. -/
theorem Acted.reason_eq (h : Acted (.scripted scriptOf vars) m w a x p) (ha : a.Sound) (hal : a.Alert)
    (hl : a.stage.Lasting scriptOf) (hd : a.Dated scriptOf vars m.now) (hm : m.scope = none) (hbl : a.Blamed)
    (hu : a.Unrivalled m.now) : p.activity.reason scriptOf vars m.now = a.reason scriptOf vars m.now := by
  cases h with
  | refused hp hs => simp [hm] at hs
  | @fanned stages hp hs hg =>
    rw [reason_waiting hp, Stage.failure?_eq, Stage.branches_of_parallel hg, reason_fanned rfl rfl,
      predictAll_ofStage, reasonAll_ofStage]
    rfl
  | begun hp hs hg ho =>
    rw [reason_waiting hp, Stage.failure?_eq, Stage.branches, hg, ho.reason_eq hl hm]
    rfl
  | @looked u phase w' trace hp ht =>
    rw [reason_working hp]
    rcases taken_look ht with ⟨_, h, _⟩ | ⟨_, _, rfl⟩ | ⟨_, _, rfl⟩
    · simp [hm] at h
    · exact reason_ended rfl
    · exact reason_working rfl
  | @joined i ms f b lines error hp hf hb he hj hlen =>
    have hjoined := reason_joining ha hal hl hd hbl hu hp hf hb he hj
    rw [reason_fanned (by exact hp) rfl]
    cases hje : (f.joining a.stage.failsFast (b.report i error)).join.error with
    | some e =>
      rw [hje] at hjoined
      rw [hjoined]
      rfl
    | none =>
      rw [hje] at hjoined
      obtain ⟨hfe, rfl⟩ := hjoined
      have hbranches : a.joiningBranches f (b.report i none) = a.branches := by
        simp [joiningBranches, Join.cancels, report]
      rw [hbranches, reason_fanned hp hf, hfe]
  | @failed i ms f b lines error e hp hf hb he hj hlen hr =>
    have hjoined := reason_joining ha hal hl hd hbl hu hp hf hb he hj
    rw [hr] at hjoined
    rw [reason_ended rfl, hjoined]
  | @gathered i ms f b lines error phase w' trace hp hf hb he hj hlen hr ho =>
    have hjoined := reason_joining ha hal hl hd hbl hu hp hf hb he hj
    rw [hr] at hjoined
    obtain ⟨hfe, rfl⟩ := hjoined
    have hblame : Fate.blame (predictAll scriptOf vars m.now a.branches none)
        (reasonAll scriptOf vars m.now a.branches) = none := by
      refine blame_eq_none fun c hc hfail => ?_
      obtain ⟨k, hk⟩ := List.mem_iff_getElem?.1 hc
      obtain ⟨hce, hreport⟩ := ha.here.hasEnded_of_joining hf hb he hj hlen k c hk
      obtain ⟨ms', lines', error', hcp⟩ := hasEnded_iff.1 hce
      have hok : c.error? = none := by
        rcases List.mem_append.1 hreport with hr | hr
        · exact ha.here.error_eq_none hf hfe hr
        · exact congrArg Report.error (List.mem_singleton.1 hr)
      rw [predict_ended hcp, ← error?_of_phase hcp, hok] at hfail
      cases hfail
    rw [ho.reason_eq hl hm, reason_fanned hp hf, hfe, hblame]
    rfl

/-- The error that an orderly tree ends with stays the same as a stage goes on. -/
theorem Timely.reason_eq (h : Timely (.scripted scriptOf vars) x a m w p) (ha : a.Sound) (hal : a.Alert)
    (hl : a.stage.Lasting scriptOf) (hd : a.Dated scriptOf vars m.now) (hm : m.scope = none) (hbl : a.Blamed)
    (hu : a.Unrivalled m.now) (ho : a.Orderly m.now) :
    p.activity.reason scriptOf vars m.now = a.reason scriptOf vars m.now := by
  induction h with
  | here h hdue => exact h.reason_eq ha hal hl hd hm hbl hu
  | @branch a b m w p f i hp hf hb h ih =>
    have hmem := List.mem_of_getElem? hb
    have hn := h.stepped.not_hasEnded
    rw [reason_fanned hp hf, reason_fanned (a := { a with branches := a.branches.set i p.activity }) hp hf]
    cases hfe : f.join.error with
    | some e => rfl
    | none =>
      have hs := hbl.scope_eq_none ha.here hf hfe
      have hbranch : b.stage.Lasting scriptOf := ha.here.branch_stage hl hmem
      have horderly := ho.branch ha.here hp hf hb hn
      have hpredict : p.activity.predict scriptOf vars m.now none = b.predict scriptOf vars m.now none :=
        h.predict_of_orderly (ha.branch hmem) (hal.branch hmem) hbranch (hd.branch hmem) hs horderly (by simp)
          (by simp)
      have hreason : p.activity.reason scriptOf vars m.now = b.reason scriptOf vars m.now :=
        ih (ha.branch hmem) (hal.branch hmem) hbranch (hd.branch hmem) hs (hbl.branches i b hb (not_excused hf hs i))
          (hu.branch hmem) horderly
      have hreasons : reasonAll scriptOf vars m.now (a.branches.set i p.activity) =
          reasonAll scriptOf vars m.now a.branches := by
        rw [reasonAll_eq, reasonAll_eq, map_set_of_eq hb hreason]
      rw [predictAll_set hb hpredict, hreasons]

end Steps

end StageTree.Activity
