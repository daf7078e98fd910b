import StageTree.Proofs.Activity.Errors
import StageTree.Proofs.Run.Records
import StageTree.Proofs.Timed.Schedule
import StageTree.Run.Launch

/-! How the run of a source ends. It is turned away by the first of its configuration, its source and its
pipeline that is at fault, and then nothing has happened; or it begins, and then it records a stage and ends with
no error of these kinds. -/

namespace StageTree

variable {W U M : Type}

namespace Run

variable {s : Setting W U} {r r' : Run W U} {p : Pipeline} {w : W}

/-- A run that has begun ends with no error that would have turned it away, and it has recorded a stage. -/
theorem outcome_of_moved (hp : p.Proper) (hr : s.runner.Plain) {moves : List Move}
    (h : (begin p w).moved s moves = some r) (hover : r.verdict.isSome = true) :
    (∀ e, r.outcome.error = some e → e.isRejection = false) ∧ r.outcome.records ≠ [] := by
  have hs := sound_of_moved hp h
  refine ⟨fun e he => ?_, fun hnil => ?_⟩
  · obtain ⟨front, last, hpast, herror⟩ := hs.exists_last hp hover
    have hlast := (throughout_of_moved hp (Activity.persistent_plain hr) h last (by simp [hpast])).here
    exact hlast e (herror.symm.trans he)
  · obtain ⟨front, last, rest, status, _, htop, _⟩ := records_top hs hp (paced_of_moved hp h) hover
    have hrecords : r.records = [] := hnil
    simp [hrecords] at htop

end Run

/-! ### Before a run begins -/

/-- What turns the run of a source away: its configuration if that is at fault, else the source if it does not
parse, else the pipeline if it breaks a rule. -/
inductive Config.Rejects (c : Config) (source : String) : RunError → Prop
  | config {f : ConfigFault} (h : c.fault? = some f) : Rejects c source f.error
  | parse {e : Source.Error} (hc : c.fault? = none) (h : Source.parse source = .error e) :
      Rejects c source (.parse e)
  | validation {p : Pipeline} {v : Violation} (hc : c.fault? = none) (hp : Source.parse source = .ok p)
      (h : p.violation? = some v) : Rejects c source (.validation v.error)

/-- What lets the run of a source begin. -/
structure Config.Admits (c : Config) (source : String) (p : Pipeline) : Prop where
  config : c.fault? = none
  parse : Source.parse source = .ok p
  validation : p.violation? = none

namespace Config

variable {c : Config} {source : String} {programs : Programs M} {vars : Bindings} {cancels : List (Nat × String)}
  {m : M} {p : Pipeline} {e : RunError}

theorem Rejects.isRejection (h : c.Rejects source e) : e.isRejection = true := by cases h <;> rfl

/-- The run of a source is turned away or begins. -/
theorem rejects_or_admits (c : Config) (source : String) : (∃ e, c.Rejects source e) ∨ ∃ p, c.Admits source p := by
  cases hc : c.fault? with
  | some f => exact .inl ⟨_, .config hc⟩
  | none =>
    cases hp : Source.parse source with
    | error e => exact .inl ⟨_, .parse hc hp⟩
    | ok p =>
      cases hv : p.violation? with
      | some v => exact .inl ⟨_, .validation hc hp hv⟩
      | none => exact .inr ⟨p, hc, hp, hv⟩

theorem Rejects.launch_eq (h : c.Rejects source e) : c.launch programs vars cancels m source = .reject cancels e m := by
  cases h with
  | config h => simp only [launch, h]
  | parse hc h => simp only [launch, hc, h]
  | validation hc hp h => simp only [launch, hc, hp, Run.validated, h]

theorem Admits.launch_eq (h : c.Admits source p) :
    c.launch programs vars cancels m source = .execute (c.setting programs vars) cancels m p := by
  simp only [launch, h.config, h.parse, Run.validated, h.validation]

theorem runner_onTime (c : Config) (programs : Programs M) : (c.runner programs).OnTime :=
  .retrying c.retry (Backend.planned_punctual _ _)

/-- A run that begins is played to its end. -/
theorem Admits.exists_moved (h : c.Admits source p) (programs : Programs M) (vars : Bindings)
    (cancels : List (Nat × String)) (m : M) :
    ∃ moves, (Run.begin p m).moved (c.setting programs vars) moves = some (c.launch programs vars cancels m source) ∧
      (c.launch programs vars cancels m source).verdict.isSome = true := by
  obtain ⟨rank, hr⟩ := (c.runner_onTime programs).prompt
  obtain ⟨moves, t, hmoves, hrun, hover⟩ := Run.exists_moved_execute (s := c.setting programs vars)
    (Pipeline.proper_of_violation?_eq_none h.validation) hr cancels m
  rw [h.launch_eq, ← hrun]
  exact ⟨moves, Timed.run_moved hmoves, hover⟩

end Config

end StageTree
