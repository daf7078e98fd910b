import StageTree.Process.Dispatch
import StageTree.Proofs.Process.Shells

/-! How the variables of a unit reach its commands. In an attempt shell texts are run for the steps in turn, on the
host or in the container that was created, and each is run by one form of call, which has all variables of the
unit. -/

namespace StageTree

def Deed.shellCall? : Deed → Option Call
  | .call c _ => if c.text?.isSome then some c else none
  | .aside _ => none

def shellCalls (deeds : List Deed) : List Call := deeds.filterMap Deed.shellCall?

/-- Some first steps are rendered, and their texts are run in turn, each by a call of one form. If the attempt
succeeds these are all steps. -/
def RunsSteps (handlers : Handlers) (steps : List Step) (call : String → Call) (deeds : List Deed)
    (result : Option AttemptResult) : Prop :=
  ∃ before after texts, steps = before ++ after ∧ handlers.Renders before texts ∧
    shellCalls deeds = texts.map call ∧ ((∃ outputs, result = some (.ok outputs)) → after = [])

section

variable {c : Call} {cleanup : Option Call} {r : Option CallResult} {deeds : List Deed}

theorem shellCalls_of_text (h : c.text?.isSome = true) (r : Option CallResult) (deeds : List Deed) :
    shellCalls (.call c r :: deeds) = c :: shellCalls deeds :=
  List.filterMap_cons_some (by rw [Deed.shellCall?, if_pos h])

theorem shellCalls_lifecycle (h : c.text? = none) (r : Option CallResult) (deeds : List Deed) :
    shellCalls (.call c r :: deeds) = shellCalls deeds :=
  List.filterMap_cons_none (by simp [Deed.shellCall?, h])

theorem shellCalls_append (front deeds : List Deed) :
    shellCalls (front ++ deeds) = shellCalls front ++ shellCalls deeds :=
  List.filterMap_append

theorem shellCalls_clearing (cleanup : Option Call) : shellCalls (Plan.clearing cleanup) = [] := by
  cases cleanup <;> rfl

end

theorem Plan.Halted.not_ok {r : Option CallResult} {result : Option AttemptResult} (h : Halted r result) :
    ¬ ∃ outputs, result = some (.ok outputs) := by
  cases h <;> simp

namespace RunsSteps

variable {handlers : Handlers} {step : Step} {steps : List Step} {call : String → Call} {deeds : List Deed}
  {result : Option AttemptResult} {text : String}

/-- No step is run. -/
theorem of_silent (h : shellCalls deeds = []) (hok : (∃ outputs, result = some (.ok outputs)) → steps = []) :
    RunsSteps handlers steps call deeds result :=
  ⟨[], steps, [], rfl, .nil, h, hok⟩

/-- The first step is run, and it may be the last. -/
theorem stopped (hs : handlers.render step.toCommand = .ok text) (hc : (call text).text?.isSome = true)
    {r : Option CallResult} (hr : Plan.Halted r result) (cleanup : Option Call) :
    RunsSteps handlers (step :: steps) call (.call (call text) r :: Plan.clearing cleanup) result := by
  refine ⟨[step], steps, [text], rfl, .cons hs .nil, ?_, fun h => absurd h hr.not_ok⟩
  rw [shellCalls_of_text hc, shellCalls_clearing, List.map_singleton]

theorem cons (hs : handlers.render step.toCommand = .ok text) (hc : (call text).text?.isSome = true)
    (r : Option CallResult) (h : RunsSteps handlers steps call deeds result) :
    RunsSteps handlers (step :: steps) call (.call (call text) r :: deeds) result := by
  obtain ⟨before, after, texts, rfl, hrenders, hcalls, hok⟩ := h
  refine ⟨step :: before, after, text :: texts, rfl, .cons hs hrenders, ?_, hok⟩
  rw [shellCalls_of_text hc, hcalls, List.map_cons]

theorem append {front : List Deed} (hfront : shellCalls front = []) (h : RunsSteps handlers steps call deeds result) :
    RunsSteps handlers steps call (front ++ deeds) result := by
  obtain ⟨before, after, texts, hsteps, hrenders, hcalls, hok⟩ := h
  refine ⟨before, after, texts, hsteps, hrenders, ?_, hok⟩
  rw [shellCalls_append, hfront, hcalls, List.nil_append]

theorem lifecycle {c : Call} (hc : c.text? = none) (r : Option CallResult)
    (h : RunsSteps handlers steps call deeds result) : RunsSteps handlers steps call (.call c r :: deeds) result :=
  h.append (shellCalls_lifecycle hc r [])

end RunsSteps

namespace Plan.Course

variable {handlers : Handlers} {shell : String} {env : Bindings} {steps : List Step} {deeds : List Deed}
  {result : Option AttemptResult} {binary id image : String} {outputs texts : List String}

theorem runs_of_hostFrom
    (h : (hostFrom handlers shell env outputs (steps.map Step.toCommand)).Course deeds result) :
    RunsSteps handlers steps (hostCall shell env) deeds result := by
  induction steps generalizing outputs deeds with
  | nil =>
    obtain ⟨rfl, _⟩ := done_iff.1 h
    exact .of_silent rfl fun _ => rfl
  | cons step steps ih =>
    rw [List.map_cons, hostFrom] at h
    cases hs : handlers.render step.toCommand with
    | error e =>
      rw [hs] at h
      obtain ⟨rfl, rfl⟩ := done_iff.1 h
      exact .of_silent rfl fun hok => by simp at hok
    | ok text =>
      rw [hs] at h
      obtain ⟨r, _, rfl, hr⟩ | ⟨out, rest, _, rfl, hrest⟩ := of_demand h
      · exact .stopped hs rfl hr none
      · exact (ih hrest).cons hs rfl _

theorem runs_of_execFrom {next : List String → Plan}
    (hnext : ∀ {outputs deeds result}, (next outputs).Course deeds result → shellCalls deeds = [])
    (hsteps : handlers.Renders steps texts)
    (h : (execFrom binary id shell env outputs next texts).Course deeds result) :
    RunsSteps handlers steps (fun text => ⟨binary, execArgs id shell env text, .empty⟩) deeds result := by
  have hcall (text : String) : (Call.mk binary (execArgs id shell env text) .empty).text?.isSome = true := by
    rw [Call.text?_exec, Option.isSome_some]
  induction hsteps generalizing outputs deeds with
  | nil => exact .of_silent (hnext h) fun _ => rfl
  | cons hs _ ih =>
    obtain ⟨r, _, rfl, hr⟩ | ⟨out, rest, _, rfl, hrest⟩ := of_demand h
    · exact .stopped hs (hcall _) hr _
    · exact (ih hrest).cons hs (hcall _) _

/-- A call of the container program that runs no shell text, and what comes after it if it succeeds. -/
theorem of_lifecycle_or {operation : String} {args : List String} {cleanup : Option Call} {next : String → Plan}
    (htext : (Call.mk binary args .empty).text? = none)
    (h : (lifecycle binary operation image args cleanup next).Course deeds result) :
    (shellCalls deeds = [] ∧ ¬ ∃ outputs, result = some (.ok outputs)) ∨
      ∃ out rest, deeds = .call ⟨binary, args, .empty⟩ (some (.ended out)) :: rest ∧
        (next (Text.trim out.text)).Course rest result := by
  obtain ⟨r, _, rfl, hr⟩ | ⟨out, rest, _, rfl, hrest⟩ := of_demand h
  · exact .inl ⟨by rw [shellCalls_lifecycle htext, shellCalls_clearing], hr.not_ok⟩
  · exact .inr ⟨out, rest, rfl, hrest⟩

/-- No shell text is run while the image is made sure of. -/
theorem of_ensureImage_or {policy : PullPolicy} {next : Plan}
    (h : (ensureImage binary policy image next).Course deeds result) :
    (shellCalls deeds = [] ∧ ¬ ∃ outputs, result = some (.ok outputs)) ∨
      ∃ front rest, deeds = front ++ rest ∧ shellCalls front = [] ∧ next.Course rest result := by
  have hpull {deeds : List Deed}
      (h : (lifecycle binary "pull" image ["pull", image] none fun _ => next).Course deeds result) :
      (shellCalls deeds = [] ∧ ¬ ∃ outputs, result = some (.ok outputs)) ∨
        ∃ front rest, deeds = front ++ rest ∧ shellCalls front = [] ∧ next.Course rest result := by
    obtain hstop | ⟨out, rest, rfl, hnext⟩ := of_lifecycle_or rfl h
    · exact .inl hstop
    · exact .inr ⟨[_], rest, rfl, rfl, hnext⟩
  cases policy with
  | never => exact .inr ⟨[], deeds, rfl, rfl, h⟩
  | always => exact hpull h
  | ifNotPresent =>
    obtain ⟨rfl, hr⟩ | ⟨reason, rfl, hr⟩ | ⟨out, rest, rfl, hrest⟩ := of_run h
    · exact .inl ⟨rfl, hr.not_ok⟩
    · exact .inl ⟨rfl, hr.not_ok⟩
    · split at hrest
      · exact .inr ⟨[_], rest, rfl, rfl, hrest⟩
      · obtain ⟨hsilent, hnot⟩ | ⟨front, rest, rfl, hfront, hnext⟩ := hpull hrest
        · exact .inl ⟨by rw [shellCalls_lifecycle rfl, hsilent], hnot⟩
        · exact .inr ⟨_ :: front, rest, rfl, by rw [shellCalls_lifecycle rfl, hfront], hnext⟩

theorem runs_of_inContainer (hsteps : handlers.Renders steps texts)
    (h : (inContainer binary id shell image env texts).Course deeds result) :
    RunsSteps handlers steps (fun text => ⟨binary, execArgs id shell env text, .empty⟩) deeds result := by
  unfold inContainer at h
  obtain ⟨hsilent, hnot⟩ | ⟨_, rest, rfl, hexec⟩ := of_lifecycle_or rfl h
  · exact .of_silent hsilent fun hok => absurd hok hnot
  · refine .lifecycle rfl _ (runs_of_execFrom (fun hstop => ?_) hsteps hexec)
    obtain ⟨hsilent, _⟩ | ⟨_, rest, rfl, hremove⟩ := of_lifecycle_or rfl hstop
    · exact hsilent
    · cases hremove with
      | dropped => rfl
      | went r hdone =>
        obtain ⟨rfl, _⟩ := done_iff.1 hdone
        rfl

end Plan.Course

/-- An attempt that is made at a unit: its calls, with what comes of them, and its result, if it is not dropped. -/
structure Attempted where
  unit : UnitOfWork
  deeds : List Deed
  result : Option AttemptResult

namespace Attempted

/-- The call that runs a shell text on the host, with variables in its environment. -/
def hostCall (config : BackendConfig) (env : Bindings) (text : String) : Call :=
  ⟨config.hostShell, ["-c", text], env⟩

/-- The call that runs a shell text in a container, with variables among its arguments. -/
def execCall (config : BackendConfig) (id : String) (env : Bindings) (text : String) : Call :=
  ⟨config.dockerBinary, "exec" :: env.entries.flatMap (fun b => ["-e", b.1 ++ "=" ++ b.2]) ++
    [id, config.containerShell, "-c", text], .empty⟩

/-- The container that was created for an image in an attempt. -/
def Created (config : BackendConfig) (image : String) (a : Attempted) (id : String) : Prop :=
  ∃ out, .call ⟨config.dockerBinary, Plan.createArgs config.containerShell image, .empty⟩ (some (.ended out)) ∈
    a.deeds ∧ id = Text.trim out.text

/-- An attempt in which the commands of the unit are executed with some variables, on the host or in the container
that was created for the unit. -/
structure Executes (config : BackendConfig) (env : Bindings) (a : Attempted) : Prop where
  host : a.unit.agent = .none →
    RunsSteps .builtins a.unit.steps (hostCall config env) a.deeds a.result
  container : ∀ image, a.unit.agent.image? = some image → ∃ id,
    RunsSteps .builtins a.unit.steps (execCall config id env) a.deeds a.result ∧
      (shellCalls a.deeds ≠ [] → a.Created config image id)

variable {config : BackendConfig} {unit : UnitOfWork} {deeds : List Deed} {result : Option AttemptResult}
  {image : String}

theorem container_of_course (himage : unit.agent.image? = some image)
    (h : (Plan.container .builtins config unit).Course deeds result) : ∃ id,
      RunsSteps .builtins unit.steps (execCall config id unit.env) deeds result ∧
        (shellCalls deeds ≠ [] → Created config image ⟨unit, deeds, result⟩ id) := by
  obtain ⟨_, _, _, e, _, _, _, hplan⟩ | ⟨texts, htexts, hplan⟩ := Plan.container_cases .builtins config himage
  · rw [hplan] at h
    obtain ⟨rfl, rfl⟩ := Plan.Course.done_iff.1 h
    exact ⟨"", .of_silent rfl fun hok => by simp at hok, fun hne => absurd rfl hne⟩
  · rw [hplan] at h
    obtain ⟨hsilent, hnot⟩ | ⟨front, rest, rfl, hfront, hcreate⟩ := Plan.Course.of_ensureImage_or h
    · exact ⟨"", .of_silent hsilent fun hok => absurd hok hnot, fun hne => absurd hsilent hne⟩
    · obtain ⟨hsilent, hnot⟩ | ⟨out, rest, rfl, hlife⟩ := Plan.Course.of_lifecycle_or rfl hcreate
      · have hnone : shellCalls (front ++ rest) = [] := by
          rw [shellCalls_append, hfront, hsilent, List.append_nil]
        exact ⟨"", .of_silent hnone fun hok => absurd hok hnot, fun hne => absurd hnone hne⟩
      · refine ⟨Text.trim out.text, .append hfront (.lifecycle rfl _ ?_), fun _ => ⟨out, ?_, rfl⟩⟩
        · exact Plan.Course.runs_of_inContainer htexts hlife
        · exact List.mem_append_right _ List.mem_cons_self

/-- The calls of an attempt have the variables of its unit. -/
theorem executes_of_course (h : (Plan.ofUnit config unit).Course deeds result) :
    Executes config unit.env ⟨unit, deeds, result⟩ where
  host hagent := by
    rw [Plan.ofUnit, show unit.agent = .none from hagent] at h
    exact Plan.Course.runs_of_hostFrom h
  container image himage := by
    have hplan : Plan.ofUnit config unit = Plan.container .builtins config unit := by
      rw [Plan.ofUnit]
      cases hagent : unit.agent with
      | none =>
        rw [show unit.agent = .none from hagent] at himage
        cases himage
      | container image => rfl
    rw [hplan] at h
    exact container_of_course himage h

end Attempted

end StageTree
