import StageTree.Proofs.Activity.InFlight
import StageTree.Proofs.Fate.Laws

/-! What becomes of the stages at work in a tree whose units follow scripts. A stage that has ended is as
it is, one whose unit is at work ends when that is over or at the deadline, and the branches of a group that
is cancelled have their deadline now. -/

namespace StageTree

abbrev Setting.scripted (scriptOf : String → Script) (vars : Bindings) : Setting Journal Asleep :=
  ⟨.scripted scriptOf, vars⟩

namespace Activity

variable (scriptOf : String → Script) (vars : Bindings) (now : Nat)

mutual

/-- What becomes of a stage at work from an instant on, under a deadline. -/
def predict : Activity Asleep → Option Nat → Fate
  | ⟨stage, since, phase, fan, branches⟩, deadline =>
    match phase with
    | .waiting => stage.fate scriptOf vars now deadline
    | .working u =>
      Fate.working { name := stage.name, since, ends := now, branches := predictAll branches deadline }
        u.script u.unit u.wakes deadline
    | .ended ms lines error =>
      { name := stage.name, since, ends := ms, status := .ofError error, lines,
        branches := predictAll branches deadline }
    | .fanned =>
      match fan.bind Fan.scope with
      | some _ => stage.settled scriptOf vars since (predictAll branches (some now)) deadline
      | none => stage.grouped scriptOf vars since (predictAll branches) deadline

def predictAll : List (Activity Asleep) → Option Nat → List Fate
  | [], _ => []
  | a :: as, deadline => predict a deadline :: predictAll as deadline

end

variable {scriptOf : String → Script} {vars : Bindings} {now : Nat} {a : Activity Asleep}
  {deadline : Option Nat}

theorem predictAll_eq (as : List (Activity Asleep)) (deadline : Option Nat) :
    predictAll scriptOf vars now as deadline = as.map fun a => a.predict scriptOf vars now deadline := by
  induction as with
  | nil => rfl
  | cons a as ih => rw [predictAll, ih, List.map_cons]

theorem predict_waiting (hp : a.phase = .waiting) :
    a.predict scriptOf vars now deadline = a.stage.fate scriptOf vars now deadline := by
  obtain ⟨stage, since, phase, fan, branches⟩ := a
  subst hp
  rfl

theorem predict_working {u : Asleep} (hp : a.phase = .working u) :
    a.predict scriptOf vars now deadline =
      Fate.working
        { name := a.stage.name
          since := a.since
          ends := now
          branches := predictAll scriptOf vars now a.branches deadline }
        u.script u.unit u.wakes deadline := by
  obtain ⟨stage, since, phase, fan, branches⟩ := a
  subst hp
  rfl

theorem predict_ended {ms : Nat} {lines : Option (List String)} {error : Option RunError}
    (hp : a.phase = .ended ms lines error) :
    a.predict scriptOf vars now deadline =
      { name := a.stage.name
        since := a.since
        ends := ms
        status := .ofError error
        lines
        branches := predictAll scriptOf vars now a.branches deadline } := by
  obtain ⟨stage, since, phase, fan, branches⟩ := a
  subst hp
  rfl

theorem predict_live {f : Fan} (hp : a.phase = .fanned) (hf : a.fan = some f) (hs : f.scope = none) :
    a.predict scriptOf vars now deadline =
      a.stage.grouped scriptOf vars a.since (predictAll scriptOf vars now a.branches) deadline := by
  obtain ⟨stage, since, phase, fan, branches⟩ := a
  subst hp hf
  simp only [predict, Option.bind_some, hs]

theorem predict_cancelled {f : Fan} {reason : String} (hp : a.phase = .fanned) (hf : a.fan = some f)
    (hs : f.scope = some reason) :
    a.predict scriptOf vars now deadline =
      a.stage.settled scriptOf vars a.since (predictAll scriptOf vars now a.branches (some now)) deadline := by
  obtain ⟨stage, since, phase, fan, branches⟩ := a
  subst hp hf
  simp only [predict, Option.bind_some, hs]

@[simp] theorem predictAll_ofStage (stages : List Stage) :
    predictAll scriptOf vars now (stages.map ofStage) = Stage.fateAll scriptOf vars now stages := by
  funext deadline
  rw [predictAll_eq, Stage.fateAll_eq, List.map_map]
  exact List.map_congr_left fun st _ => predict_waiting rfl

/-- What has become of a stage that has ended is known, whatever the instant and the deadline. -/
theorem predict_of_hasEnded (ha : a.Sound) (he : a.hasEnded = true) (now now' : Nat)
    (deadline deadline' : Option Nat) :
    a.predict scriptOf vars now deadline = a.predict scriptOf vars now' deadline' := by
  have hall := ha.hasEnded he
  clear ha he
  induction hall with
  | @mk a here below ih =>
    obtain ⟨ms, lines, error, hp⟩ := hasEnded_iff.1 here
    rw [predict_ended hp, predict_ended hp, predictAll_eq, predictAll_eq]
    congr 1
    exact List.map_congr_left fun b hb => ih b hb

/-- What becomes of the branches of a stage past its group is known. -/
theorem Sound.predictAll_eq (ha : a.Sound) (hp : a.phase ≠ .fanned) (now now' : Nat)
    (deadline deadline' : Option Nat) : predictAll scriptOf vars now a.branches deadline =
      predictAll scriptOf vars now' a.branches deadline' := by
  rw [Activity.predictAll_eq, Activity.predictAll_eq]
  exact List.map_congr_left fun b hb =>
    predict_of_hasEnded (ha.branch hb) (ha.here.hasEnded_of_mem hp hb) now now' deadline deadline'

end Activity

end StageTree
