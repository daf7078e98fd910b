import Mathlib.Data.List.Forall2
import StageTree.Proofs.Process.Course

/-! The life of a container. An attempt at a unit in a container runs errands in a fixed order, of which
only the pull depends on what came before: it ends at the first errand that fails or is given up. A
container that was created is gone when the attempt is over. -/

namespace StageTree

/-- What the container program is called for. -/
inductive Errand where
  | inspect
  | pull
  | create
  | start
  | exec (text : String)
  | stop
  | remove
  deriving DecidableEq, Repr

/-- Errands that were run, each with what came of its call, if it was not given up. -/
abbrev Errands := List (Errand × Option CallResult)

namespace Errand

/-- The errands of a unit, by the pull policy, whether the image is there, and the texts to be run. -/
def due (policy : PullPolicy) (present : Bool) (texts : List String) : List Errand :=
  (match policy with
    | .never => []
    | .always => [pull]
    | .ifNotPresent => inspect :: if present then [] else [pull])
  ++ create :: start :: (texts.map exec ++ [stop, remove])

/-- What follows the name of the container program, for an image, a container and the variables. -/
def args (shell image id : String) (env : Bindings) : Errand → List String
  | inspect => ["image", "inspect", image]
  | pull => ["pull", image]
  | create => Plan.createArgs shell image
  | start => ["start", id]
  | exec text => Plan.execArgs id shell env text
  | stop => ["stop", id]
  | remove => ["rm", id]

/-- Whether the errands go on after this one. An inspection may fail, and a removal need not even start. -/
def passes : Errand → Option CallResult → Bool
  | remove, r => r.isSome
  | inspect, some (.ended _) => true
  | _, r => CallResult.fine r

def text? : Errand → Option String
  | exec text => some text
  | _ => none

/-- A text that was run in the container to its end, with what its program left. -/
def printed? : Errand × Option CallResult → Option (String × Output)
  | (e, some (.ended out)) => e.text?.map (·, out)
  | _ => none

def created? : Errand × Option CallResult → Option String
  | (create, some (.ended out)) => if out.succeeded then some (Text.trim out.text) else none
  | _ => none

end Errand

namespace Errands

def found (log : Errands) : Bool := log.any fun x => x.1 = .inspect && CallResult.fine x.2

def container? (log : Errands) : Option String := log.findSome? Errand.created?

/-- Whether the removal came to an end. -/
def removed (log : Errands) : Bool := log.any fun x => x.1 = .remove && x.2.isSome

def callOf (config : BackendConfig) (image id : String) (env : Bindings) (x : Errand × Option CallResult) : Deed :=
  .call ⟨config.dockerBinary, x.1.args config.containerShell image id env, .empty⟩ x.2

/-- The removal by force of a container that is left. -/
def rest (config : BackendConfig) (log : Errands) : List Deed :=
  if log.removed then [] else Plan.clearing (log.container?.map (Plan.forceRemoval config.dockerBinary))

/-- The calls of errands, and the one that clears up after them. -/
def deeds (config : BackendConfig) (image : String) (env : Bindings) (log : Errands) : List Deed :=
  log.map (callOf config image (log.container?.getD "") env) ++ log.rest config

end Errands

/-! ### Runs of errands -/

/-- Errands run one after the other, the outputs of earlier ones given. -/
inductive Errands.Run : List Errand → List String → Errands → Option AttemptResult → Prop
  | finished (outputs : List String) : Run [] outputs [] (some (.ok outputs))
  | stopped {e : Errand} (es : List Errand) (outputs : List String) {r : Option CallResult}
      {result : Option AttemptResult} (h : e.passes r = false) (hr : Plan.Halted r result) :
      Run (e :: es) outputs [(e, r)] result
  | went {e : Errand} {es : List Errand} {outputs : List String} {r : CallResult} {log : Errands}
      {result : Option AttemptResult} (h : e.passes (some r) = true)
      (hrest : Run es (outputs ++ ((Errand.printed? (e, some r)).map fun x => Text.withoutControl x.2.text).toList)
        log result) :
      Run (e :: es) outputs ((e, some r) :: log) result

namespace Errands

variable {es : List Errand} {outputs : List String} {log : Errands} {result : Option AttemptResult}

namespace Run

theorem prefix_errands (h : Run es outputs log result) : log.map Prod.fst <+: es := by
  induction h with
  | finished => exact List.prefix_refl _
  | stopped es => exact ⟨es, rfl⟩
  | went h hrest ih => simpa using ih

theorem mem_errands (h : Run es outputs log result) {x : Errand × Option CallResult} (hx : x ∈ log) : x.1 ∈ es :=
  h.prefix_errands.subset (List.mem_map_of_mem hx)

/-- Nothing is run after an errand that did not pass. -/
theorem eq_nil_of_not_passes (h : Run es outputs log result) {before after : Errands}
    {x : Errand × Option CallResult} (hlog : log = before ++ x :: after) (hx : x.1.passes x.2 = false) :
    after = [] := by
  induction h generalizing before with
  | finished => simp at hlog
  | stopped es outputs h hr =>
    cases before with
    | nil => exact (List.cons.inj hlog).2.symm
    | cons y before => simp at hlog
  | went h hrest ih =>
    cases before with
    | nil =>
      obtain ⟨rfl, -⟩ := List.cons.inj hlog
      rw [h] at hx
      cases hx
    | cons y before => exact ih (List.cons.inj hlog).2

theorem errands_of_passes (h : Run es outputs log result) (hall : ∀ x ∈ log, x.1.passes x.2 = true) :
    log.map Prod.fst = es := by
  induction h with
  | finished => rfl
  | stopped es outputs h hr =>
    rw [hall _ (List.mem_singleton_self _)] at h
    cases h
  | went h hrest ih => rw [List.map_cons, ih fun x hx => hall x (List.mem_cons_of_mem _ hx)]

theorem result_eq_none (h : Run es outputs log result) : result = none ↔ ∃ e, (e, none) ∈ log := by
  induction h with
  | finished => simp
  | @stopped e es outputs r result h hr =>
    cases hr with
    | dropped => simp
    | failed r e => simp
  | went h hrest ih => simp [ih]

theorem exists_ok (h : Run es outputs log result) :
    (∃ outs, result = some (.ok outs)) ↔ ∀ x ∈ log, x.1.passes x.2 = true := by
  induction h with
  | finished outputs => simp
  | stopped es outputs h hr => cases hr <;> simp [h]
  | went h hrest ih => simp [ih, h]

/-- The outputs are what the programs run in the container have printed, one for each text. -/
theorem outputs_eq (h : Run es outputs log result) {outs : List String} (hr : result = some (.ok outs)) :
    ∃ printed : List Output, log.filterMap Errand.printed?
        = (es.filterMap Errand.text?).zip printed
      ∧ printed.length = (es.filterMap Errand.text?).length
      ∧ outs = outputs ++ printed.map fun out => Text.withoutControl out.text := by
  induction h with
  | finished outputs => exact ⟨[], by simp, rfl, by simpa using hr.symm⟩
  | stopped es outputs h hs => cases hs <;> simp at hr
  | @went e es outputs r log result h hrest ih =>
    obtain ⟨printed, hlog, hlen, houts⟩ := ih hr
    cases e with
    | exec text =>
      cases r with
      | unstarted reason => simp [Errand.passes, CallResult.fine] at h
      | ended out =>
        exact ⟨out :: printed, by simp [Errand.printed?, Errand.text?, hlog], by simp [Errand.text?, hlen],
          by simpa [Errand.printed?, Errand.text?] using houts⟩
    | _ =>
      refine ⟨printed, ?_, hlen, ?_⟩
      · cases r <;> exact hlog
      · cases r <;> simpa [Errand.printed?, Errand.text?] using houts

end Run

/-! ### The calls of runs -/

@[simp] theorem removed_nil : removed [] = false := rfl

theorem removed_cons (x : Errand × Option CallResult) :
    removed (x :: log) = ((x.1 = .remove && x.2.isSome) || log.removed) := rfl

theorem found_cons (x : Errand × Option CallResult) :
    found (x :: log) = ((x.1 = .inspect && CallResult.fine x.2) || log.found) := rfl

theorem found_eq_false (h : Run es outputs log result) (hes : Errand.inspect ∉ es) : log.found = false := by
  rw [found, List.any_eq_false]
  intro x hx
  have hne : x.1 ≠ .inspect := fun heq => hes (heq ▸ h.mem_errands hx)
  simp [hne]

section Calls

variable {config : BackendConfig} {image id : String} {env : Bindings} {deeds : List Deed}

/-- Errands run while a container is there, which is removed by force if it is left. -/
def Within (config : BackendConfig) (image id : String) (env : Bindings) (es : List Errand)
    (outputs : List String) (deeds : List Deed) (result : Option AttemptResult) : Prop :=
  ∃ log, Run es outputs log result
    ∧ deeds = log.map (callOf config image id env)
      ++ if log.removed then [] else Plan.clearing (some (Plan.forceRemoval config.dockerBinary id))

/-- The removal: whether it succeeds or not, the errands are over. -/
theorem within_remove {cleanup : Option Call}
    (hc : cleanup = some (Plan.forceRemoval config.dockerBinary id))
    (h : (Plan.call ⟨config.dockerBinary, ["rm", id], .empty⟩ cleanup fun _ => .done none (.ok outputs)).Course
      deeds result) :
    Within config image id env [.remove] outputs deeds result := by
  subst hc
  cases h with
  | dropped => exact ⟨[(.remove, none)], .stopped _ _ rfl .dropped, rfl⟩
  | went r h =>
    obtain ⟨rfl, rfl⟩ := Plan.Course.done_iff.1 h
    refine ⟨[(.remove, some r)], .went rfl ?_, rfl⟩
    cases r <;> simpa [Errand.printed?, Errand.text?] using Run.finished outputs

/-- An errand that has to succeed, and those after it. -/
theorem within_cons {e : Errand} {c : Call} {next : Output → Plan} {error : Output → BackendError}
    (hp : ∀ r, e.passes r = CallResult.fine r) (hne : e ≠ .remove)
    (hc : c = ⟨config.dockerBinary, e.args config.containerShell image id env, .empty⟩)
    (h : (Plan.run c (some (Plan.forceRemoval config.dockerBinary id)) fun out =>
      if out.succeeded then next out else .done (some (Plan.forceRemoval config.dockerBinary id))
        (.error (error out))).Course deeds result)
    (hnext : ∀ out deeds, (next out).Course deeds result → Within config image id env es
      (outputs ++ ((Errand.printed? (e, some (.ended out))).map fun x => Text.withoutControl x.2.text).toList)
      deeds result) :
    Within config image id env (e :: es) outputs deeds result := by
  subst hc
  obtain ⟨r, hr, rfl, hhalt⟩ | ⟨out, rest, ho, rfl, hrest⟩ := Plan.Course.of_demand h
  · exact ⟨[(e, r)], .stopped es outputs (by rw [hp, hr]) hhalt, by simp [callOf, removed_cons, hne]⟩
  · obtain ⟨log, hrun, rfl⟩ := hnext out rest hrest
    refine ⟨(e, some (.ended out)) :: log, .went (by rw [hp]; exact ho) hrun, ?_⟩
    simp [callOf, removed_cons, hne]

/-- Texts run in the container, and the errands after them. -/
theorem within_exec {next : List String → Plan} {texts : List String}
    (hnext : ∀ outputs deeds, (next outputs).Course deeds result →
      Within config image id env es outputs deeds result)
    (h : (Plan.execFrom config.dockerBinary id config.containerShell env outputs next texts).Course deeds result) :
    Within config image id env (texts.map .exec ++ es) outputs deeds result := by
  induction texts generalizing outputs deeds with
  | nil => exact hnext outputs deeds h
  | cons text texts ih =>
    refine within_cons (e := .exec text) (fun r => by cases r <;> rfl) (by simp) rfl h ?_
    intro out rest hrest
    exact ih hrest

/-- A container's start, the texts run in it, its stop and its removal. -/
theorem within_inContainer {texts : List String}
    (h : (Plan.inContainer config.dockerBinary id config.containerShell image env texts).Course deeds result) :
    Within config image id env (.start :: (texts.map .exec ++ [.stop, .remove])) [] deeds result := by
  refine within_cons (e := .start) (fun r => by cases r <;> rfl) (by simp) rfl h ?_
  intro _ rest hrest
  refine within_exec (fun outputs deeds hstop => ?_) (by simpa [Errand.printed?, Errand.text?] using hrest)
  refine within_cons (e := .stop) (fun r => by cases r <;> rfl) (by simp) rfl hstop ?_
  intro _ rest hremove
  exact within_remove rfl (by simpa [Errand.printed?, Errand.text?] using hremove)

/-! ### The errands of a unit -/

/-- Nothing that comes before the creation is about a container. -/
theorem deeds_cons {x : Errand × Option CallResult} (hx : x.1 = .inspect ∨ x.1 = .pull) :
    Errands.deeds config image env (x :: log) = callOf config image "" env x :: log.deeds config image env := by
  obtain ⟨e, r⟩ := x
  obtain rfl | rfl := hx <;> cases r <;> rfl

/-- The creation of a container, and its life. -/
theorem run_create {texts : List String}
    (h : (Plan.lifecycle config.dockerBinary "create" image (Plan.createArgs config.containerShell image) none
      fun id => Plan.inContainer config.dockerBinary id config.containerShell image env texts).Course
      deeds result) :
    ∃ log, Run (.create :: .start :: (texts.map .exec ++ [.stop, .remove])) [] log result
      ∧ deeds = Errands.deeds config image env log := by
  obtain ⟨r, hr, rfl, hhalt⟩ | ⟨out, rest, ho, rfl, hrest⟩ := Plan.Course.of_demand h
  · refine ⟨[(.create, r)], .stopped _ _ (by cases r <;> exact hr) hhalt, ?_⟩
    have hnone : container? [(.create, r)] = none := by
      rw [container?, List.findSome?_singleton]
      match r with
      | none | some (.unstarted _) => rfl
      | some (.ended out) => exact if_neg (by simpa [CallResult.fine] using hr)
    simp [Errands.deeds, Errands.rest, hnone, callOf, Errand.args, Plan.clearing]
  · obtain ⟨log, hrun, rfl⟩ := within_inContainer hrest
    refine ⟨(.create, some (.ended out)) :: log, .went ho hrun, ?_⟩
    have hid : container? ((.create, some (.ended out)) :: log) = some (Text.trim out.text) := by
      simp [container?, Errand.created?, ho]
    simp [Errands.deeds, Errands.rest, hid, callOf, Errand.args, removed_cons]

/-- The pull, and what comes after it. -/
theorem run_pull {next : Plan}
    (hnext : ∀ deeds, next.Course deeds result → ∃ log, Run es [] log result
      ∧ deeds = Errands.deeds config image env log)
    (h : (Plan.lifecycle config.dockerBinary "pull" image ["pull", image] none fun _ => next).Course
      deeds result) :
    ∃ log, Run (.pull :: es) [] log result ∧ deeds = Errands.deeds config image env log := by
  obtain ⟨r, hr, rfl, hhalt⟩ | ⟨out, rest, ho, rfl, hrest⟩ := Plan.Course.of_demand h
  · exact ⟨[(.pull, r)], .stopped _ _ (by cases r <;> exact hr) hhalt, by rw [deeds_cons (.inr rfl)]; rfl⟩
  · obtain ⟨log, hrun, rfl⟩ := hnext rest hrest
    exact ⟨(.pull, some (.ended out)) :: log, .went ho hrun, by rw [deeds_cons (.inr rfl)]; rfl⟩

/-- All errands of a unit, whose texts are given. -/
theorem run_due {texts : List String}
    (h : (Plan.ensureImage config.dockerBinary config.pullPolicy image <|
      Plan.lifecycle config.dockerBinary "create" image (Plan.createArgs config.containerShell image) none
        fun id => Plan.inContainer config.dockerBinary id config.containerShell image env texts).Course
      deeds result) :
    ∃ log, Run (Errand.due config.pullPolicy log.found texts) [] log result
      ∧ deeds = Errands.deeds config image env log := by
  unfold Plan.ensureImage at h
  cases hp : config.pullPolicy with
  | never =>
    rw [hp] at h
    obtain ⟨log, hrun, rfl⟩ := run_create h
    exact ⟨log, hrun, rfl⟩
  | always =>
    rw [hp] at h
    obtain ⟨log, hrun, rfl⟩ := run_pull (fun _ => run_create) h
    exact ⟨log, hrun, rfl⟩
  | ifNotPresent =>
    rw [hp] at h
    have hstops : ∀ r, Errand.passes .inspect r = false → Plan.Halted r result →
        ∃ log, Run (Errand.due .ifNotPresent log.found texts) [] log result
          ∧ .call ⟨config.dockerBinary, ["image", "inspect", image], .empty⟩ r :: Plan.clearing none
            = Errands.deeds config image env log := by
      intro r hr hhalt
      exact ⟨[(.inspect, r)], .stopped _ _ hr hhalt, by rw [deeds_cons (.inl rfl)]; rfl⟩
    obtain ⟨rfl, hhalt⟩ | ⟨reason, rfl, hhalt⟩ | ⟨out, rest, rfl, hrest⟩ := Plan.Course.of_run h
    · exact hstops none rfl hhalt
    · exact hstops (some (.unstarted reason)) rfl hhalt
    · cases ho : out.succeeded with
      | true =>
        obtain ⟨log, hrun, rfl⟩ := run_create (by simpa only [ho, if_true] using hrest)
        refine ⟨(.inspect, some (.ended out)) :: log, ?_, by rw [deeds_cons (.inl rfl)]; rfl⟩
        have hfound : found ((.inspect, some (.ended out)) :: log) = true := by
          simp [found_cons, CallResult.fine, ho]
        rw [hfound]
        exact .went rfl hrun
      | false =>
        obtain ⟨log, hrun, rfl⟩ := run_pull (fun _ => run_create) (by simpa [ho] using hrest)
        refine ⟨(.inspect, some (.ended out)) :: log, ?_, by rw [deeds_cons (.inl rfl)]; rfl⟩
        have hfound : found ((.inspect, some (.ended out)) :: log) = false := by
          simp [found_cons, CallResult.fine, ho, found_eq_false hrun]
        rw [hfound]
        exact .went rfl hrun

end Calls

/-- An attempt at a unit in a container, by the errands that were run.
`cut`: the errands end at the first that does not pass. `whole`: if all pass, none is missing.
`deeds`: the calls are those of the errands, and at last, if a container was created and its removal did not
come to an end, the removal by force. -/
structure Account (config : BackendConfig) (image : String) (env : Bindings) (texts : List String)
    (log : Errands) (deeds : List Deed) (result : Option AttemptResult) : Prop where
  deeds : deeds = log.deeds config image env
  inOrder : log.map Prod.fst <+: Errand.due config.pullPolicy log.found texts
  cut : ∀ before x after, log = before ++ x :: after → x.1.passes x.2 = false → after = []
  whole : (∀ x ∈ log, x.1.passes x.2 = true) → log.map Prod.fst = Errand.due config.pullPolicy log.found texts
  dropped : result = none ↔ ∃ e, (e, none) ∈ log
  ok : (∃ outputs, result = some (.ok outputs)) ↔ ∀ x ∈ log, x.1.passes x.2 = true
  outputs : ∀ outputs, result = some (.ok outputs) →
    ∃ printed, log.filterMap Errand.printed? = texts.zip printed ∧ printed.length = texts.length
      ∧ outputs = printed.map fun out => Text.withoutControl out.text

theorem texts_due (policy : PullPolicy) (present : Bool) (texts : List String) :
    (Errand.due policy present texts).filterMap Errand.text? = texts := by
  have hexec : (texts.map .exec).filterMap Errand.text? = texts := by
    rw [List.filterMap_map]
    exact List.filterMap_some
  cases policy <;> cases present <;> simp [Errand.due, Errand.text?, List.filterMap_cons, hexec]

theorem Run.account {config : BackendConfig} {image : String} {env : Bindings} {texts : List String}
    {deeds : List Deed} (h : Run (Errand.due config.pullPolicy log.found texts) [] log result)
    (hd : deeds = Errands.deeds config image env log) : Account config image env texts log deeds result where
  deeds := hd
  inOrder := h.prefix_errands
  cut _ _ _ := h.eq_nil_of_not_passes
  whole := h.errands_of_passes
  dropped := h.result_eq_none
  ok := h.exists_ok
  outputs outputs hr := by simpa only [texts_due, List.nil_append] using h.outputs_eq hr

end Errands

/-- A list is read up to the first member that cannot be read. -/
theorem mapM_cases {α β ε : Type} (f : α → Except ε β) (l : List α) :
    (∃ before x after e, l = before ++ x :: after ∧ (∀ y ∈ before, ∃ b, f y = .ok b) ∧ f x = .error e
        ∧ l.mapM f = .error e)
      ∨ ∃ ys, List.Forall₂ (fun x y => f x = .ok y) l ys ∧ l.mapM f = .ok ys := by
  induction l with
  | nil => exact .inr ⟨[], .nil, rfl⟩
  | cons x l ih =>
    cases hx : f x with
    | error e => exact .inl ⟨[], x, l, e, rfl, by simp, hx, by rw [List.mapM_cons, hx]; rfl⟩
    | ok y =>
      obtain ⟨before, z, after, e, rfl, hb, hz, hm⟩ | ⟨ys, hys, hm⟩ := ih
      · exact .inl ⟨x :: before, z, after, e, rfl, List.forall_mem_cons.2 ⟨⟨y, hx⟩, hb⟩, hz,
          by rw [List.mapM_cons, hx, hm]; rfl⟩
      · exact .inr ⟨y :: ys, .cons hx hys, by rw [List.mapM_cons, hx, hm]; rfl⟩

/-- The plan of a unit in a container: it is over if a step cannot be rendered, and runs the texts of all
steps if every step can. -/
theorem Plan.container_cases (handlers : Handlers) (config : BackendConfig) {unit : UnitOfWork} {image : String}
    (h : unit.agent.image? = some image) :
    (∃ before step after e, unit.steps = before ++ step :: after
        ∧ (∀ s ∈ before, ∃ text, handlers.render s.toCommand = .ok text)
        ∧ handlers.render step.toCommand = .error e ∧ container handlers config unit = .done none (.error e))
      ∨ ∃ texts, List.Forall₂ (fun s text => handlers.render s.toCommand = .ok text) unit.steps texts
        ∧ container handlers config unit
          = (ensureImage config.dockerBinary config.pullPolicy image <|
              lifecycle config.dockerBinary "create" image (createArgs config.containerShell image) none
                fun id => inContainer config.dockerBinary id config.containerShell image unit.env texts) := by
  have hmap : unit.commands.mapM handlers.render = unit.steps.mapM fun s => handlers.render s.toCommand :=
    List.mapM_map
  obtain ⟨before, step, after, e, hsteps, hb, hstep, hm⟩ | ⟨texts, htexts, hm⟩ :=
    mapM_cases (fun s : Step => handlers.render s.toCommand) unit.steps
  · exact .inl ⟨before, step, after, e, hsteps, hb, hstep, by rw [container, h, hmap, hm]⟩
  · exact .inr ⟨texts, htexts, by rw [container, h, hmap, hm]⟩

namespace Backend

/-- An attempt at a unit in a container, looked at and dropped whenever it may be. If a step cannot be
rendered, nothing is called and the first such step's error is returned. Otherwise errands are run for the
texts of all steps. -/
theorem container_attempt {M : Type} (p : Programs M) (handlers : Handlers) (config : BackendConfig)
    (unit : UnitOfWork) (image : String) (h : unit.agent.image? = some image) (now : Nat) (looks : List Nat)
    (m : M) :
    ∃ m' deeds result,
      (planned p (Plan.container handlers config)).attempt unit now looks m = (m', result)
      ∧ (planned p.watched (Plan.container handlers config)).attempt unit now looks (m, [])
        = ((m', deeds), result)
      ∧ ((∃ before step after e, unit.steps = before ++ step :: after
            ∧ (∀ s ∈ before, ∃ text, handlers.render s.toCommand = .ok text)
            ∧ handlers.render step.toCommand = .error e ∧ deeds = [] ∧ result = some (.error e))
        ∨ ∃ texts log, List.Forall₂ (fun s text => handlers.render s.toCommand = .ok text) unit.steps texts
            ∧ Errands.Account config image unit.env texts log deeds result) := by
  obtain ⟨deeds, hwatched, hcourse⟩ := attempt_watched p (Plan.container handlers config) unit now looks m
  refine ⟨_, deeds, _, rfl, hwatched, ?_⟩
  obtain ⟨before, step, after, e, hsteps, hb, hstep, hplan⟩ | ⟨texts, htexts, hplan⟩ :=
    Plan.container_cases handlers config h
  · rw [hplan] at hcourse
    obtain ⟨hdeeds, hresult⟩ := Plan.Course.done_iff.1 hcourse
    exact .inl ⟨before, step, after, e, hsteps, hb, hstep, hdeeds, hresult⟩
  · rw [hplan] at hcourse
    obtain ⟨log, hrun, hdeeds⟩ := Errands.run_due hcourse
    exact .inr ⟨texts, log, htexts, hrun.account hdeeds⟩

/-- Programs that give prepared results, one for each call, and hang when none is left. -/
def prepared : Programs (List CallResult) where
  call _ m := (m.tail, m.head?)
  callAside _ m := m

def alpineUnit : UnitOfWork := ⟨"unit", [.single "echo" "hi"], .container "alpine", .empty⟩

/-- A container that was created and does not start is removed by force. -/
theorem container_attempt_unstarted :
    ∃ texts log, List.Forall₂ (fun (s : Step) text => Handlers.builtins.render s.toCommand = .ok text)
        alpineUnit.steps texts
      ∧ Errands.Account {} "alpine:latest" .empty texts log
        [.call ⟨"docker", ["image", "inspect", "alpine:latest"], .empty⟩ (some (.ended {})),
          .call ⟨"docker", Plan.createArgs "sh" "alpine:latest", .empty⟩ (some (.ended { stdout := [99] })),
          .call ⟨"docker", ["start", "c"], .empty⟩ (some (.ended { code := some 7 })),
          .aside ⟨"docker", ["rm", "-f", "c"], .empty⟩]
        (some (.error (.container "start" "alpine:latest" ""))) := by
  obtain ⟨m', deeds, result, -, hwatched, hcases⟩ := container_attempt prepared .builtins {} alpineUnit
    "alpine:latest" rfl 0 [] [.ended {}, .ended { stdout := [99] }, .ended { code := some 7 }]
  have hrun : (planned prepared.watched (Plan.container .builtins {})).attempt alpineUnit 0 []
      ([.ended {}, .ended { stdout := [99] }, .ended { code := some 7 }], [])
      = (([], [.call ⟨"docker", ["image", "inspect", "alpine:latest"], .empty⟩ (some (.ended {})),
          .call ⟨"docker", Plan.createArgs "sh" "alpine:latest", .empty⟩ (some (.ended { stdout := [99] })),
          .call ⟨"docker", ["start", "c"], .empty⟩ (some (.ended { code := some 7 })),
          .aside ⟨"docker", ["rm", "-f", "c"], .empty⟩]),
        some (.error (.container "start" "alpine:latest" ""))) := by decide +kernel
  rw [hrun] at hwatched
  obtain ⟨⟨rfl, rfl⟩, rfl⟩ := by simpa only [Prod.mk.injEq] using hwatched
  obtain ⟨_, _, _, _, _, _, _, hdeeds, _⟩ | hcases := hcases
  · cases hdeeds
  · exact hcases

end Backend

end StageTree
