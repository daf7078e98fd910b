import Mathlib.Data.List.Perm.Subperm
import StageTree.Proofs.Activity.Acts
import StageTree.Proofs.Group.Join
import StageTree.Proofs.Pipeline.Proper

/-! Coherent trees. In a stage at work the phase, the group and the branches fit together: the branches
are those of the stage, a group knows of every branch that it joined how it ended, it goes on once it
has joined all of them, and its error becomes that of the stage. Every step keeps a tree coherent, and
so does a cancellation. -/

namespace StageTree

open Activity

variable {W U : Type}

/-- A phase that a stage can be in: only a stage with steps has a unit at work or outputs. -/
inductive Phase.Fits (stage : Stage) : Phase U → Prop
  | waiting : Fits stage .waiting
  | fanned : Fits stage .fanned
  | working (h : stage.hasSteps = true) (u : U) : Fits stage (.working u)
  | returned (h : stage.hasSteps = true) (ms : Nat) (lines : List String) :
      Fits stage (.ended ms (some lines) none)
  | idle (h : stage.hasSteps = false) (ms : Nat) : Fits stage (.ended ms none none)
  | failed (ms : Nat) (e : RunError) : Fits stage (.ended ms none (some e))

theorem Status.ofError_eq_cancel {error : Option RunError} :
    Status.ofError error = .cancel ↔ error.any RunError.isCancellation = true := by
  cases error with
  | none => simp [ofError]
  | some e => cases h : e.isCancellation <;> simp [ofError, h]

theorem Status.ofError_eq_fail {error : Option RunError} :
    Status.ofError error = .fail ↔ error.any RunError.isFailure = true := by
  cases error with
  | none => simp [ofError]
  | some e => cases h : e.isCancellation <;> simp [ofError, h, RunError.isFailure]

/-- The error of a group is a failure if one of its branches failed, and else a cancellation. -/
theorem Status.ofError_firstError {errors : List (Option RunError)} {e : RunError}
    (h : errors.foldl Join.firstError none = some e) : Status.ofError (some e) =
      if ∃ error ∈ errors, Status.ofError error = .fail then .fail else .cancel := by
  have hm := Join.mem_of_foldl_firstError h
  split
  · rename_i hfail
    obtain ⟨error, hmem, herror⟩ := hfail
    obtain ⟨e', rfl, hf⟩ := (Option.any_eq_true _ _).1 (Status.ofError_eq_fail.1 herror)
    exact Status.ofError_eq_fail.2 (by simpa using Join.isFailure_of_foldl_firstError h hmem hf)
  · rename_i hfail
    have hne : Status.ofError (some e) ≠ .fail := fun hf => hfail ⟨_, hm, hf⟩
    cases hc : e.isCancellation <;> simp [Status.ofError, hc] at hne ⊢

/-- What a group knows of its branches is true: each report is that of a branch that ended, no branch
is reported twice, and the error follows from the reports. -/
structure Fan.Faithful (f : Fan) (bs : List (Activity U)) : Prop where
  distinct : (f.join.reports.map Report.index).Nodup
  report : ∀ r ∈ f.join.reports, ∃ b, bs[r.index]? = some b ∧ b.hasEnded = true ∧
    r = b.report r.index b.error?
  error : f.join.error = f.join.reports.foldl (fun e r => Join.firstError e r.error) none

namespace Activity

theorem hasEnded_iff {a : Activity U} : a.hasEnded = true ↔ ∃ ms lines error, a.phase = .ended ms lines error := by
  obtain ⟨stage, since, phase, fan, branches⟩ := a
  cases phase <;> simp [hasEnded]

theorem hasEnded_of_phase {a : Activity U} {ms : Nat} {lines : Option (List String)}
    {error : Option RunError} (h : a.phase = .ended ms lines error) : a.hasEnded = true :=
  hasEnded_iff.2 ⟨ms, lines, error, h⟩

theorem error?_of_phase {a : Activity U} {ms : Nat} {lines : Option (List String)}
    {error : Option RunError} (h : a.phase = .ended ms lines error) : a.error? = error := by
  rw [error?, h]

theorem lines_of_phase {a : Activity U} {ms : Nat} {lines : Option (List String)}
    {error : Option RunError} (h : a.phase = .ended ms lines error) : a.lines = lines := by
  rw [Activity.lines, h]

def isCancelled (a : Activity U) : Bool := a.error?.any RunError.isCancellation

def hasFailed (a : Activity U) : Bool := a.error?.any RunError.isFailure

theorem hasEnded_of_error? {a : Activity U} {e : RunError} (h : a.error? = some e) : a.hasEnded = true := by
  cases hp : a.phase with
  | ended => exact hasEnded_of_phase hp
  | _ => simp [error?, hp] at h

theorem hasEnded_of_isCancelled {a : Activity U} (h : a.isCancelled = true) : a.hasEnded = true := by
  obtain ⟨e, he, _⟩ := (Option.any_eq_true _ _).1 h
  exact hasEnded_of_error? he

theorem hasEnded_of_hasFailed {a : Activity U} (h : a.hasFailed = true) : a.hasEnded = true := by
  obtain ⟨e, he, _⟩ := (Option.any_eq_true _ _).1 h
  exact hasEnded_of_error? he

/-- A stage that has ended is not changed by a cancellation. -/
theorem cancel_of_hasEnded {a : Activity U} (reason : String) (h : a.hasEnded = true) :
    a.cancel reason = a := by
  obtain ⟨_, _, _, hp⟩ := hasEnded_iff.1 h
  exact cancel_of_phase reason (by simp [hp])

@[simp] theorem cancel_hasEnded (a : Activity U) (reason : String) :
    (a.cancel reason).hasEnded = a.hasEnded := by
  simp [hasEnded]

theorem getElem?_map_cancel {bs : List (Activity U)} {i : Nat} {b : Activity U} (reason : String)
    (hb : bs[i]? = some b) (he : b.hasEnded = true) : (bs.map (cancel reason))[i]? = some b := by
  rw [List.getElem?_map, hb, Option.map_some, cancel_of_hasEnded reason he]

/-- A stage that does something has not ended. -/
theorem Acted.not_hasEnded {s : Setting W U} {m : Moment} {w : W} {a : Activity U} {x : Act}
    {p : Played W U} (h : Acted s m w a x p) : a.hasEnded = false := by
  cases h <;> simp [hasEnded, *]

theorem Stepped.not_hasEnded {s : Setting W U} {m : Moment} {w : W} {a : Activity U} {x : Act}
    {p : Played W U} (h : Stepped s x a m w p) : a.hasEnded = false := by
  cases h with
  | here h => exact h.not_hasEnded
  | branch hp => simp [hasEnded, hp]

theorem Acted.stage_eq {s : Setting W U} {m : Moment} {w : W} {a : Activity U} {x : Act}
    {p : Played W U} (h : Acted s m w a x p) : p.activity.stage = a.stage := by
  cases h <;> rfl

theorem Stepped.stage_eq {s : Setting W U} {m : Moment} {w : W} {a : Activity U} {x : Act}
    {p : Played W U} (h : Stepped s x a m w p) : p.activity.stage = a.stage := by
  cases h with
  | here h => exact h.stage_eq
  | branch => rfl

/-- Replacing a branch that has not ended leaves those that have in their places. -/
theorem getElem?_set_of_hasEnded {bs : List (Activity U)} {i j : Nat} {b b' c : Activity U}
    (hb : bs[i]? = some b) (hn : b.hasEnded = false) (hc : bs[j]? = some c) (he : c.hasEnded = true) :
    (bs.set i b')[j]? = some c := by
  have hij : i ≠ j := by
    rintro rfl
    rw [hb] at hc
    rw [Option.some.inj hc, he] at hn
    exact absurd hn (by simp)
  rw [List.getElem?_set_ne hij, hc]

/-- After a branch went on each branch is that one, or as it was. -/
theorem getElem?_set_cases {bs : List (Activity U)} {i k : Nat} {b' c : Activity U}
    (hc : (bs.set i b')[k]? = some c) : k = i ∧ c = b' ∨ k ≠ i ∧ bs[k]? = some c := by
  rw [List.getElem?_set] at hc
  split at hc
  · rename_i hik
    split at hc
    · exact .inl ⟨hik.symm, (Option.some.inj hc).symm⟩
    · cases hc
  · rename_i hik
    exact .inr ⟨fun e => hik e.symm, hc⟩

/-- What is the same of a branch that goes on is the same of all branches. -/
theorem map_set_of_eq {β : Type} {g : Activity U → β} {bs : List (Activity U)} {i : Nat} {b b' : Activity U}
    (hb : bs[i]? = some b) (h : g b' = g b) : (bs.set i b').map g = bs.map g := by
  obtain ⟨hlt, rfl⟩ := List.getElem?_eq_some_iff.1 hb
  rw [List.map_set, h]
  refine List.ext_getElem (by simp) fun j _ _ => ?_
  rw [List.getElem_set]
  split
  · rename_i hij
    subst hij
    rw [List.getElem_map]
  · rfl

theorem map_stage_map_cancel (bs : List (Activity U)) (reason : String) :
    (bs.map (cancel reason)).map stage = bs.map stage := by
  rw [List.map_map]
  exact List.map_congr_left fun b _ => cancel_stage b reason

end Activity

namespace Fan.Faithful

/-- A group goes on knowing the truth as long as the branches that have ended stay as they are. -/
theorem of_ended {f g : Fan} {bs bs' : List (Activity U)} (h : f.Faithful bs) (hj : g.join = f.join)
    (hbs : ∀ (i : Nat) (b : Activity U), bs[i]? = some b → b.hasEnded = true → bs'[i]? = some b) :
    g.Faithful bs' := by
  refine ⟨hj ▸ h.distinct, fun r hr => ?_, hj ▸ h.error⟩
  obtain ⟨b, hb, he, e⟩ := h.report r (hj ▸ hr)
  exact ⟨b, hbs _ _ hb he, he, e⟩

theorem nil (bs : List (Activity U)) : ({} : Fan).Faithful bs :=
  ⟨List.nodup_nil, fun _ h => absurd h List.not_mem_nil, rfl⟩

theorem hasJoined_iff {f : Fan} {i : Nat} : f.hasJoined i = true ↔ i ∈ f.join.reports.map Report.index := by
  simp [Fan.hasJoined, List.mem_map]

/-- The error of a group follows from the errors of its reports. -/
theorem error_eq {f : Fan} {bs : List (Activity U)} (h : f.Faithful bs) :
    f.join.error = (f.join.reports.map Report.error).foldl Join.firstError none := by
  rw [h.error, List.foldl_map]

/-- A branch that is not joined after another one was not joined before. -/
theorem hasJoined_of_joining {f : Fan} {failFast : Bool} {r : Report Results} {i : Nat}
    (h : (f.joining failFast r).hasJoined i = false) : f.hasJoined i = false := by
  simp only [Fan.hasJoined, Fan.joining, Join.add, List.any_append, Bool.or_eq_false_iff] at h
  exact h.1

theorem joining {f : Fan} {bs : List (Activity U)} {b : Activity U} {i : Nat} (h : f.Faithful bs)
    (hb : bs[i]? = some b) (he : b.hasEnded = true) (hj : f.hasJoined i = false) (failFast : Bool) :
    (f.joining failFast (b.report i b.error?)).Faithful bs := by
  have hi : i ∉ f.join.reports.map Report.index := fun hm => by
    rw [hasJoined_iff.2 hm] at hj
    exact absurd hj (by simp)
  refine ⟨?_, fun r hr => ?_, ?_⟩
  · simp only [Fan.joining, Join.add, List.map_append, List.map_cons, List.map_nil]
    exact List.nodup_append.2 ⟨h.distinct, List.nodup_singleton _, fun x hx y hy e => by
      obtain rfl := List.mem_singleton.1 hy
      exact hi (e ▸ hx)⟩
  · simp only [Fan.joining, Join.add, List.mem_append, List.mem_singleton] at hr
    rcases hr with hr | rfl
    · exact h.report r hr
    · exact ⟨b, hb, he, rfl⟩
  · simp only [Fan.joining, Join.add, List.foldl_append, List.foldl_cons, List.foldl_nil, h.error]

/-- A group has no more reports than branches. -/
theorem length_le {f : Fan} {bs : List (Activity U)} (h : f.Faithful bs) :
    f.join.reports.length ≤ bs.length := by
  have hsub : f.join.reports.map Report.index ⊆ List.range bs.length := by
    intro i hi
    obtain ⟨r, hr, rfl⟩ := List.mem_map.1 hi
    obtain ⟨b, hb, _⟩ := h.report r hr
    obtain ⟨hlt, _⟩ := List.getElem?_eq_some_iff.1 hb
    exact List.mem_range.2 hlt
  have := (List.Nodup.subperm h.distinct hsub).length_le
  simpa using this

/-- Once it has as many reports as branches, every branch has ended and is reported. -/
theorem mem_of_length {f : Fan} {bs : List (Activity U)} (h : f.Faithful bs)
    (hl : f.join.reports.length = bs.length) {i : Nat} {b : Activity U} (hb : bs[i]? = some b) :
    b.hasEnded = true ∧ b.report i b.error? ∈ f.join.reports := by
  have hsub : f.join.reports.map Report.index ⊆ List.range bs.length := by
    intro j hj
    obtain ⟨r, hr, rfl⟩ := List.mem_map.1 hj
    obtain ⟨c, hc, _⟩ := h.report r hr
    exact List.mem_range.2 (List.getElem?_eq_some_iff.1 hc).1
  have hperm : (f.join.reports.map Report.index).Perm (List.range bs.length) :=
    (List.Nodup.subperm h.distinct hsub).perm_of_length_le (by simp [hl])
  obtain ⟨hlt, _⟩ := List.getElem?_eq_some_iff.1 hb
  obtain ⟨r, hr, rfl⟩ := List.mem_map.1 (hperm.mem_iff.2 (List.mem_range.2 hlt))
  obtain ⟨c, hc, he, e⟩ := h.report r hr
  rw [hb] at hc
  obtain rfl := Option.some.inj hc
  exact ⟨he, e ▸ hr⟩

/-- A group without an error has joined none. -/
theorem error_eq_none {f : Fan} {bs : List (Activity U)} (h : f.Faithful bs) (hnone : f.join.error = none)
    {r : Report Results} (hr : r ∈ f.join.reports) : r.error = none :=
  Join.foldl_firstError_eq_none.1 (h.error_eq.symm.trans hnone) _ (List.mem_map_of_mem hr)

/-- If it has joined all branches then, they have ended without an error. -/
theorem clear_of_mem {f : Fan} {bs : List (Activity U)} (h : f.Faithful bs)
    (hl : f.join.reports.length = bs.length) (hnone : f.join.error = none) {b : Activity U} (hb : b ∈ bs) :
    b.hasEnded = true ∧ b.error? = none := by
  obtain ⟨i, hi⟩ := List.mem_iff_getElem?.1 hb
  obtain ⟨he, hr⟩ := h.mem_of_length hl hi
  exact ⟨he, h.error_eq_none hnone hr⟩

/-- The errors that it knows of are those of its branches then. -/
theorem mem_errors {f : Fan} {bs : List (Activity U)} (h : f.Faithful bs)
    (hl : f.join.reports.length = bs.length) {error : Option RunError} :
    error ∈ f.join.reports.map Report.error ↔ ∃ b ∈ bs, b.error? = error := by
  rw [List.mem_map]
  constructor
  · rintro ⟨r, hr, rfl⟩
    obtain ⟨b, hb, _, e⟩ := h.report r hr
    exact ⟨b, List.mem_of_getElem? hb, (congrArg Report.error e).symm⟩
  · rintro ⟨b, hb, rfl⟩
    obtain ⟨i, hi⟩ := List.mem_iff_getElem?.1 hb
    exact ⟨_, (h.mem_of_length hl hi).2, rfl⟩

end Fan.Faithful

namespace Activity

/-- A node of a tree in which phase, group and branches fit together. -/
structure Coherent (a : Activity U) : Prop where
  proper : a.stage.Proper
  waiting : a.phase = .waiting → a.fan = none
  fanned : a.phase = .fanned → a.fan ≠ none
  single : a.fan = none → a.branches = []
  grouped : ∀ f, a.fan = some f → a.stage.parallel = some (a.branches.map stage)
  faithful : ∀ f, a.fan = some f → f.Faithful a.branches
  /-- A stage leaves its group exactly when all branches are joined. -/
  joined : ∀ f, a.fan = some f → (a.phase = .fanned ↔ f.join.reports.length < a.branches.length)
  /-- Only a stage without a group gets to its unit without one. -/
  alone : a.fan = none → a.phase = .waiting ∨ a.stage.parallel = none ∨
    ∃ ms e, a.phase = .ended ms none (some e)
  /-- The error of a group is that of its stage. -/
  error : ∀ f e, a.fan = some f → f.join.error = some e →
    a.phase = .fanned ∨ ∃ ms, a.phase = .ended ms none (some e)
  fits : a.phase.Fits a.stage

abbrev Sound : Activity U → Prop := Everywhere Coherent

namespace Coherent

variable {a : Activity U}

theorem stages (h : a.Coherent) {f : Fan} (hf : a.fan = some f) : a.stage.branches = a.branches.map stage :=
  Stage.branches_of_parallel (h.grouped f hf)

theorem ne_nil (h : a.Coherent) {f : Fan} (hf : a.fan = some f) : a.branches ≠ [] := fun hb =>
  h.proper.group (by rw [h.grouped f hf, hb, List.map_nil])

/-- Only a stage that entered its group has branches. -/
theorem stages_of_mem (h : a.Coherent) {b : Activity U} (hb : b ∈ a.branches) :
    a.stage.branches = a.branches.map stage := by
  cases hf : a.fan with
  | none =>
    rw [h.single hf] at hb
    cases hb
  | some f => exact h.stages hf

theorem names (h : a.Coherent) : (a.branches.map (·.stage.name)).Nodup := by
  cases hf : a.fan with
  | none => simp [h.single hf]
  | some f =>
    have hnames := h.proper.names
    rwa [h.stages hf, List.map_map] at hnames

/-- A stage past its group has joined all branches. -/
theorem length_eq (h : a.Coherent) {f : Fan} (hf : a.fan = some f) (hp : a.phase ≠ .fanned) :
    f.join.reports.length = a.branches.length :=
  Nat.le_antisymm (h.faithful f hf).length_le (Nat.le_of_not_lt fun hlt => hp ((h.joined f hf).2 hlt))

/-- All branches of a stage that is past its group have ended and are reported. -/
theorem ended (h : a.Coherent) {f : Fan} (hf : a.fan = some f) (hp : a.phase ≠ .fanned) {i : Nat}
    {b : Activity U} (hb : a.branches[i]? = some b) :
    b.hasEnded = true ∧ b.report i b.error? ∈ f.join.reports :=
  (h.faithful f hf).mem_of_length (h.length_eq hf hp) hb

/-- What holds throughout the stage tree holds throughout that of a branch. -/
theorem branch_stage (h : a.Coherent) {P : Stage → Prop} (hs : Stage.Everywhere P a.stage) {b : Activity U}
    (hb : b ∈ a.branches) : Stage.Everywhere P b.stage :=
  hs.branch (h.stages_of_mem hb ▸ List.mem_map_of_mem hb)

/-- The group of a stage has the report of each branch that it joined. -/
theorem report_of_hasJoined (h : a.Coherent) {f : Fan} (hf : a.fan = some f) {i : Nat} {b : Activity U}
    (hb : a.branches[i]? = some b) (hj : f.hasJoined i = true) :
    b.hasEnded = true ∧ b.report i b.error? ∈ f.join.reports := by
  obtain ⟨r, hr, rfl⟩ := List.mem_map.1 (Fan.Faithful.hasJoined_iff.1 hj)
  obtain ⟨c, hc, he, e⟩ := (h.faithful f hf).report r hr
  obtain rfl := Option.some.inj (hb.symm.trans hc)
  exact ⟨he, e ▸ hr⟩

theorem error_eq_none (h : a.Coherent) {f : Fan} (hf : a.fan = some f) (hnone : f.join.error = none)
    {r : Report Results} (hr : r ∈ f.join.reports) : r.error = none :=
  (h.faithful f hf).error_eq_none hnone hr

/-- A stage whose branches are not at work has none, or they have ended. -/
theorem hasEnded_of_mem (h : a.Coherent) (hp : a.phase ≠ .fanned) {b : Activity U} (hb : b ∈ a.branches) :
    b.hasEnded = true := by
  obtain ⟨i, hi⟩ := List.mem_iff_getElem?.1 hb
  cases hf : a.fan with
  | none =>
    rw [h.single hf] at hb
    cases hb
  | some f => exact (h.ended hf hp hi).1

/-- All branches of the group of a stage that ended without an error have ended so. -/
theorem clear_of_mem (h : a.Coherent) (he : a.hasEnded = true) (hn : a.error? = none) {b : Activity U}
    (hb : b ∈ a.branches) : b.hasEnded = true ∧ b.error? = none := by
  obtain ⟨ms, lines, error, hp⟩ := hasEnded_iff.1 he
  have hph : a.phase ≠ .fanned := by simp [hp]
  cases hf : a.fan with
  | none =>
    rw [h.single hf] at hb
    cases hb
  | some f =>
    have hnone : f.join.error = none := Option.eq_none_iff_forall_ne_some.2 fun e hj => by
      rcases h.error f e hf hj with hfan | ⟨_, hfail⟩
      · exact hph hfan
      · rw [error?_of_phase hfail] at hn
        cases hn
    exact (h.faithful f hf).clear_of_mem (h.length_eq hf hph) hnone hb

/-- A stage that ended without an error has all branches of its group. -/
theorem stages_of_clear (h : a.Coherent) (he : a.hasEnded = true) (hn : a.error? = none) :
    a.stage.branches = a.branches.map stage := by
  cases hf : a.fan with
  | some f => exact h.stages hf
  | none =>
    rw [h.single hf, List.map_nil, Stage.branches]
    rcases h.alone hf with hp | hg | ⟨_, _, hp⟩
    · simp [hasEnded, hp] at he
    · rw [hg, Option.getD_none]
    · simp [error?_of_phase hp] at hn

end Coherent

/-! ### Coherence is kept -/

theorem coherent_ofStage {s : Stage} (h : s.Proper) : (ofStage s : Activity U).Coherent where
  proper := h
  waiting _ := rfl
  fanned h := by simp [ofStage] at h
  single _ := rfl
  grouped _ h := by simp [ofStage] at h
  faithful _ h := by simp [ofStage] at h
  joined _ h := by simp [ofStage] at h
  alone _ := .inl rfl
  error _ _ h := by simp [ofStage] at h
  fits := .waiting

theorem sound_ofStage {s : Stage} (h : s.Proper) : (ofStage s : Activity U).Sound :=
  .mk (coherent_ofStage h) fun b hb => absurd hb (by simp [ofStage])

theorem Sound.cancel {a : Activity U} (h : a.Sound) (reason : String) : (a.cancel reason).Sound := by
  induction h with
  | @mk a here below ih =>
    rcases a.cancel_cases reason with e | ⟨join, hp, hf, e⟩
    · rw [e]
      exact .mk here below
    · rw [e]
      refine .mk ?_ fun b hb => ?_
      · exact
          { here with
            waiting := fun hw => by simp [hp] at hw
            fanned := fun _ => by simp
            single := fun hn => by simp at hn
            grouped := fun f _ => by
              rw [map_stage_map_cancel]
              exact here.grouped _ hf
            faithful := fun f hf' => by
              obtain rfl := Option.some.inj hf'
              exact (here.faithful _ hf).of_ended rfl fun i b hb he => getElem?_map_cancel reason hb he
            joined := fun f hf' => by
              obtain rfl := Option.some.inj hf'
              simpa using here.joined _ hf
            alone := fun hn => by simp at hn
            error := fun f e' hf' he => by
              obtain rfl := Option.some.inj hf'
              exact here.error _ e' hf he }
      · obtain ⟨c, hc, rfl⟩ := List.mem_map.1 hb
        exact ih c hc

section Steps

variable {s : Setting W U} {m : Moment} {w : W} {a : Activity U} {x : Act} {p : Played W U}

/-- What becomes of a stage whose runner was looked at fits a stage with steps. -/
theorem Taken.fits {since : Nat} {t : Turn W U} {phase : Phase U} {w' : W} {trace : List Entry}
    {stage : Stage} (h : Taken m since t phase w' trace) (hs : stage.hasSteps = true) :
    phase.Fits stage ∧ phase ≠ .waiting ∧ phase ≠ .fanned := by
  cases h with
  | waits w notes u => exact ⟨.working hs u, by simp, by simp⟩
  | returns w notes r =>
    cases r with
    | ok lines => exact ⟨.returned hs _ lines, by simp, by simp⟩
    | error e => exact ⟨.failed _ e, by simp, by simp⟩

theorem Onward.fits {since : Nat} {stage : Stage} {phase : Phase U} {w' : W} {trace : List Entry}
    (h : Onward s m stage since w phase w' trace) :
    phase.Fits stage ∧ phase ≠ .waiting ∧ phase ≠ .fanned := by
  cases h with
  | idle h => exact ⟨.idle h _, by simp, by simp⟩
  | unit h ht => exact ht.fits h

theorem joiningBranches_eq (a : Activity U) (f : Fan) (r : Report Results) :
    a.joiningBranches f r = a.branches ∨
      ∃ reason, a.joiningBranches f r = a.branches.map (Activity.cancel reason) := by
  rw [joiningBranches]
  split
  · exact .inr ⟨_, rfl⟩
  · exact .inl rfl

@[simp] theorem joiningBranches_length (a : Activity U) (f : Fan) (r : Report Results) :
    (a.joiningBranches f r).length = a.branches.length := by
  rcases a.joiningBranches_eq f r with e | ⟨_, e⟩ <;> simp [e]

theorem joiningBranches_stages (a : Activity U) (f : Fan) (r : Report Results) :
    (a.joiningBranches f r).map stage = a.branches.map stage := by
  rcases a.joiningBranches_eq f r with e | ⟨reason, e⟩ <;> rw [e]
  exact map_stage_map_cancel _ reason

/-- Joining a branch leaves those that have ended as they are. -/
theorem getElem?_joiningBranches (f : Fan) (r : Report Results) {i : Nat} {b : Activity U}
    (hb : a.branches[i]? = some b) (he : b.hasEnded = true) :
    (a.joiningBranches f r)[i]? = some b := by
  rcases a.joiningBranches_eq f r with e | ⟨reason, e⟩ <;> rw [e]
  · exact hb
  · exact getElem?_map_cancel reason hb he

/-- A group that joins a branch which has ended goes on knowing the truth. -/
theorem Coherent.faithful_joining (h : a.Coherent) {i ms : Nat} {f : Fan} {b : Activity U}
    {lines : Option (List String)} {error : Option RunError} (hf : a.fan = some f) (hb : a.branches[i]? = some b)
    (he : b.phase = .ended ms lines error) (hj : f.hasJoined i = false) :
    (f.joining a.stage.failsFast (b.report i error)).Faithful a.branches := by
  have hfaith := (h.faithful f hf).joining hb (hasEnded_of_phase he) hj a.stage.failsFast
  rwa [error?_of_phase he] at hfaith

/-- What joining a branch leaves of a coherent stage, whatever its phase becomes. -/
theorem Coherent.joining (h : a.Coherent) {i ms : Nat} {f : Fan} {b : Activity U}
    {lines : Option (List String)} {error : Option RunError} {phase : Phase U} (hf : a.fan = some f)
    (hb : a.branches[i]? = some b) (he : b.phase = .ended ms lines error) (hj : f.hasJoined i = false)
    (hw : phase ≠ .waiting) (hfits : phase.Fits a.stage)
    (hph : phase = .fanned ↔
      (f.joining a.stage.failsFast (b.report i error)).join.reports.length < a.branches.length)
    (herr : ∀ e, (f.joining a.stage.failsFast (b.report i error)).join.error = some e →
      phase = .fanned ∨ ∃ ms, phase = .ended ms none (some e)) :
    Coherent { a with
      phase := phase
      fan := some (f.joining a.stage.failsFast (b.report i error))
      branches := a.joiningBranches f (b.report i error) } := by
  have hfaith := h.faithful_joining hf hb he hj
  exact
    { proper := h.proper
      waiting := fun e => absurd e hw
      fanned := fun _ => by simp
      single := fun e => by simp at e
      grouped := fun g _ => by rw [joiningBranches_stages]; exact h.grouped f hf
      faithful := fun g hg => by
        obtain rfl := Option.some.inj hg
        exact hfaith.of_ended rfl fun j c hc => getElem?_joiningBranches f _ hc
      joined := fun g hg => by
        obtain rfl := Option.some.inj hg
        rw [joiningBranches_length]
        exact hph
      alone := fun e => by simp at e
      error := fun g e hg he => by
        obtain rfl := Option.some.inj hg
        exact herr e he
      fits := hfits }

/-- A coherent stage keeps being coherent in another phase if its group, if it has one, is over. -/
theorem Coherent.withPhase (h : a.Coherent) {phase : Phase U} (since : Nat) (hp : a.phase ≠ .fanned)
    (hfits : phase.Fits a.stage) (hw : phase ≠ .waiting) (hph : phase ≠ .fanned)
    (halone : a.fan = none → a.stage.parallel = none ∨ ∃ ms e, phase = .ended ms none (some e))
    (herr : ∀ f e, a.fan = some f → f.join.error ≠ some e) :
    Coherent { a with since := since, phase := phase } where
  proper := h.proper
  waiting e := absurd e hw
  fanned e := absurd e hph
  single := h.single
  grouped := h.grouped
  faithful := h.faithful
  joined f hf := ⟨fun e => absurd e hph, fun e => absurd ((h.joined f hf).2 e) hp⟩
  alone hf := .inr (halone hf)
  error f e hf he := absurd he (herr f e hf)
  fits := hfits

/-- The group of a stage with its unit at work has no error. -/
theorem Coherent.error_ne_of_working (h : a.Coherent) {u : U} (hp : a.phase = .working u) (f : Fan)
    (e : RunError) (hf : a.fan = some f) : f.join.error ≠ some e := fun he => by
  rcases h.error f e hf he with e' | ⟨_, e'⟩ <;> simp [hp] at e'

theorem Coherent.hasSteps_of_working (h : a.Coherent) {u : U} (hp : a.phase = .working u) :
    a.stage.hasSteps = true := by
  have hfits := h.fits
  rw [hp] at hfits
  cases hfits with
  | working hs => exact hs

/-- An act keeps a stage coherent. -/
theorem Acted.coherent (h : Acted s m w a x p) (ha : a.Coherent) : p.activity.Coherent := by
  cases h with
  | refused hp hs =>
    exact ha.withPhase _ (by simp [hp]) (.failed _ _) (by simp) (by simp) (fun _ => .inr ⟨_, _, rfl⟩)
      fun f e hf => by simp [ha.waiting hp] at hf
  | @fanned stages hp hs hg hne =>
    exact
      { proper := ha.proper
        waiting := fun e => by simp at e
        fanned := fun _ => by simp
        single := fun e => by simp at e
        grouped := fun f _ => by simp [hg, Function.comp_def, ofStage]
        faithful := fun f hf => by
          obtain rfl := Option.some.inj hf
          exact Fan.Faithful.nil _
        joined := fun f hf => by
          obtain rfl := Option.some.inj hf
          simpa using List.length_pos_iff.2 hne
        alone := fun e => by simp at e
        error := fun f e hf he => .inl rfl
        fits := .fanned }
  | begun hp hs hg ho =>
    obtain ⟨hfits, hw, hph⟩ := ho.fits
    exact ha.withPhase _ (by simp [hp]) hfits hw hph (fun _ => .inl hg)
      fun f e hf => by simp [ha.waiting hp] at hf
  | looked hp ht =>
    obtain ⟨hfits, hw, hph⟩ := ht.fits (ha.hasSteps_of_working hp)
    refine ha.withPhase _ (by simp [hp]) hfits hw hph (fun hf => ?_) (ha.error_ne_of_working hp)
    rcases ha.alone hf with e | e | ⟨_, _, e⟩
    · simp [hp] at e
    · exact .inl e
    · simp [hp] at e
  | joined hp hf hb he hj hl =>
    exact ha.joining hf hb he hj (by simp [hp]) ha.fits (iff_of_true hp hl) fun e _ => .inl hp
  | failed hp hf hb he hj hl hr =>
    refine ha.joining hf hb he hj (by simp) (.failed _ _) (iff_of_false (by simp) hl) fun e he => ?_
    rw [hr] at he
    exact .inr ⟨_, by rw [Option.some.inj he]⟩
  | gathered hp hf hb he hj hl hr ho =>
    obtain ⟨hfits, hw, hph⟩ := ho.fits
    refine ha.joining hf hb he hj hw hfits (iff_of_false hph hl) fun e he => ?_
    rw [hr] at he
    cases he

/-- The branches after an act: none but those of a group that is entered are new, and the others are
as they were or cancelled. -/
theorem Acted.mem_branches (h : Acted s m w a x p) {b : Activity U} (hb : b ∈ p.activity.branches) :
    b ∈ a.branches ∨ (∃ c ∈ a.branches, ∃ reason, b = c.cancel reason) ∨
      ∃ stages, a.stage.parallel = some stages ∧ ∃ st ∈ stages, b = ofStage st := by
  have joining {f : Fan} {r : Report Results} (hb : b ∈ a.joiningBranches f r) :
      b ∈ a.branches ∨ ∃ c ∈ a.branches, ∃ reason, b = c.cancel reason := by
    rcases a.joiningBranches_eq f r with e | ⟨reason, e⟩ <;> rw [e] at hb
    · exact .inl hb
    · obtain ⟨c, hc, rfl⟩ := List.mem_map.1 hb
      exact .inr ⟨c, hc, reason, rfl⟩
  cases h with
  | refused | begun | looked => exact .inl hb
  | fanned hp hs hg hne =>
    obtain ⟨st, hst, rfl⟩ := List.mem_map.1 hb
    exact .inr (.inr ⟨_, hg, st, hst, rfl⟩)
  | joined | failed | gathered =>
    rcases joining hb with h | h
    · exact .inl h
    · exact .inr (.inl h)

theorem Acted.sound (h : Acted s m w a x p) (ha : a.Sound) : p.activity.Sound := by
  refine .mk (h.coherent ha.here) fun b hb => ?_
  rcases h.mem_branches hb with hb | ⟨c, hc, reason, rfl⟩ | ⟨stages, hg, st, hst, rfl⟩
  · exact ha.branch hb
  · exact Sound.cancel (ha.branch hc) reason
  · refine sound_ofStage (ha.here.proper.branch ?_)
    rwa [Stage.branches_of_parallel hg]

/-- Once the last branch is joined without an error all branches have ended so. -/
theorem Coherent.clear_of_joining (h : a.Coherent) {i ms : Nat} {f : Fan} {b : Activity U}
    {lines : Option (List String)} {error : Option RunError} (hf : a.fan = some f) (hb : a.branches[i]? = some b)
    (he : b.phase = .ended ms lines error) (hj : f.hasJoined i = false)
    (hl : ¬ (f.joining a.stage.failsFast (b.report i error)).join.reports.length < a.branches.length)
    (hr : (f.joining a.stage.failsFast (b.report i error)).join.error = none) {c : Activity U}
    (hc : c ∈ a.branches) : c.hasEnded = true ∧ c.error? = none := by
  have hfaith := h.faithful_joining hf hb he hj
  exact hfaith.clear_of_mem (Nat.le_antisymm hfaith.length_le (Nat.le_of_not_lt hl)) hr hc

/-- A branch that has not ended is replaced by what it became. -/
theorem Coherent.set (h : a.Coherent) {i : Nat} {b b' : Activity U} (hb : a.branches[i]? = some b)
    (hn : b.hasEnded = false) (hs : b'.stage = b.stage) :
    Coherent { a with branches := a.branches.set i b' } :=
  { h with
    single := fun hf => by simp [h.single hf]
    grouped := fun f hf => by
      rw [map_set_of_eq hb hs]
      exact h.grouped f hf
    faithful := fun f hf =>
      (h.faithful f hf).of_ended rfl fun j c hc he => getElem?_set_of_hasEnded hb hn hc he
    joined := fun f hf => by simpa using h.joined f hf }

/-- A step keeps a tree coherent throughout. -/
theorem Stepped.sound (h : Stepped s x a m w p) (ha : a.Sound) : p.activity.Sound := by
  induction h with
  | here h => exact h.sound ha
  | @branch a b m w p f i hp hf hb h ih =>
    have hsound := ih (ha.branch (List.mem_of_getElem? hb))
    refine .mk (ha.here.set hb h.not_hasEnded h.stage_eq) fun c hc => ?_
    rcases List.mem_or_eq_of_mem_set hc with hc | rfl
    · exact ha.branch hc
    · exact hsound

/-- A property of stages that an act keeps. Of the stages that do not act it sees no more than their phase. -/
structure Persistent (s : Setting W U) (P : Activity U → Prop) : Prop where
  congr : ∀ {a b : Activity U}, b.stage = a.stage → b.phase = a.phase → P a → P b
  ofStage : ∀ st, P (.ofStage st)
  acted : ∀ {m : Moment} {w : W} {a : Activity U} {x : Act} {p : Played W U}, Acted s m w a x p → a.Sound →
    Everywhere P a → P p.activity

namespace Persistent

variable {P : Activity U → Prop}

theorem everywhere_ofStage (hP : Persistent s P) (st : Stage) : Everywhere P (.ofStage st) :=
  .mk (hP.ofStage st) fun _ hb => absurd hb List.not_mem_nil

theorem cancel (hP : Persistent s P) (reason : String) (h : Everywhere P a) : Everywhere P (a.cancel reason) := by
  induction h with
  | @mk a here below ih =>
    rcases a.cancel_cases reason with e | ⟨join, hp, hf, e⟩ <;> rw [e]
    · exact .mk here below
    · refine .mk (hP.congr (a := a) rfl rfl here) fun b hb => ?_
      obtain ⟨c, hc, rfl⟩ := List.mem_map.1 hb
      exact ih c hc

/-- A step keeps it throughout a tree. -/
theorem stepped (hP : Persistent s P) (h : Stepped s x a m w p) (ha : a.Sound) (hpa : Everywhere P a) :
    Everywhere P p.activity := by
  induction h with
  | here h =>
    refine .mk (hP.acted h ha hpa) fun b hb => ?_
    rcases h.mem_branches hb with hb | ⟨c, hc, reason, rfl⟩ | ⟨stages, _, st, _, rfl⟩
    · exact hpa.branch hb
    · exact hP.cancel reason (hpa.branch hc)
    · exact hP.everywhere_ofStage st
  | @branch a b m w p f i _ _ hb _ ih =>
    have hm := List.mem_of_getElem? hb
    refine .mk (hP.congr (a := a) rfl rfl hpa.here) fun c hc => ?_
    rcases List.mem_or_eq_of_mem_set hc with hc | rfl
    · exact hpa.branch hc
    · exact ih (ha.branch hm) (hpa.branch hm)

end Persistent

/-- In a tree that is coherent throughout, a step at a position is an act of the stage there. -/
theorem Sound.stepped (ha : a.Sound) {position : List Nat} (h : a.step s x position m w = some p) :
    Stepped s x a m w p :=
  stepped_of_step (ha.imp fun _ h => h.proper.group) h

theorem Sound.distinct (ha : a.Sound) : a.Distinct := ha.imp fun _ h => h.names

end Steps

end Activity

end StageTree
