import Mathlib.Data.List.Forall2
import StageTree.Process.Host
import StageTree.Proofs.Process.Container

/-! Shell texts on the host and in a container. Both run texts by one loop, which ends at the first text that
fails; the loop on the host renders each step in its turn, the one in a container has all texts before it starts.
Where the container program does its part and a text ends with the same exit code in both, the same texts are run
and the answers agree: an output for each step, the error of the first step that cannot be rendered, or the failure
of the first text that fails. -/

namespace StageTree

def Call.text? (c : Call) : Option String :=
  match c.args with
  | ["-c", text] => some text
  | "exec" :: args => args.getLast?
  | _ => none

/-- Shell texts that were run, each with what its program left. -/
abbrev TextRuns := List (String × Output)

namespace Deed

def ran? : Deed → Option (String × Output)
  | .call c (some (.ended out)) => c.text?.map (·, out)
  | _ => none

/-- Whether a call came to its end, with success if it runs no shell text and inspects no image. -/
def isSmooth : Deed → Bool
  | .call c (some (.ended out)) => c.text?.isSome || c.args.head? == some "image" || out.succeeded
  | .call _ _ => false
  | .aside _ => true

end Deed

namespace TextRuns

def ofDeeds (deeds : List Deed) : TextRuns := deeds.filterMap Deed.ran?

def failed? (runs : TextRuns) : Option (String × Output) := runs.find? fun x => !x.2.succeeded

/-- The answer of a backend: the failure of the first text that failed, or else what follows. -/
def answer (complaint : Output → String) (onward : AttemptResult) (runs : TextRuns) : AttemptResult :=
  match runs.failed? with
  | some (text, out) => .error (.commandFailed text out.reportedCode (complaint out))
  | none => onward

/-- Texts run in their order, up to and with the first that fails. -/
inductive Follow : TextRuns → List String → Prop
  | done : Follow [] []
  | failed {text : String} {out : Output} (texts : List String) (h : out.succeeded = false) :
      Follow [(text, out)] (text :: texts)
  | went {text : String} {out : Output} {runs : TextRuns} {texts : List String} (h : out.succeeded = true)
      (rest : Follow runs texts) : Follow ((text, out) :: runs) (text :: texts)

variable {runs runs' : TextRuns} {texts : List String}

theorem failed?_cons_of_succeeded {text : String} {out : Output} (h : out.succeeded = true) (runs : TextRuns) :
    failed? ((text, out) :: runs) = runs.failed? :=
  List.find?_cons_of_neg (by simp [h])

theorem failed?_cons_of_failed {text : String} {out : Output} (h : out.succeeded = false) (runs : TextRuns) :
    failed? ((text, out) :: runs) = some (text, out) :=
  List.find?_cons_of_pos (by simp [h])

theorem answer_of_failed {complaint : Output → String} {onward : AttemptResult} {text : String} {out : Output}
    (h : runs.failed? = some (text, out)) :
    runs.answer complaint onward = .error (.commandFailed text out.reportedCode (complaint out)) := by
  rw [answer, h]

theorem answer_of_none {complaint : Output → String} {onward : AttemptResult} (h : runs.failed? = none) :
    runs.answer complaint onward = onward := by
  rw [answer, h]

theorem ofDeeds_call {c : Call} {text : String} (h : c.text? = some text) (out : Output) (deeds : List Deed) :
    ofDeeds (.call c (some (.ended out)) :: deeds) = (text, out) :: ofDeeds deeds :=
  List.filterMap_cons_some (by simp [Deed.ran?, h])

theorem ofDeeds_lifecycle {c : Call} (h : c.text? = none) (r : Option CallResult) (deeds : List Deed) :
    ofDeeds (.call c r :: deeds) = ofDeeds deeds := by
  refine List.filterMap_cons_none ?_
  rcases r with _ | _ | out
  · rfl
  · rfl
  · simp [Deed.ran?, h]

theorem ofDeeds_clearing (cleanup : Option Call) : ofDeeds (Plan.clearing cleanup) = [] := by
  cases cleanup <;> rfl

/-- If no text fails, all are run. -/
theorem Follow.texts_eq (h : runs.Follow texts) (hf : runs.failed? = none) : runs.map Prod.fst = texts := by
  induction h with
  | done => rfl
  | failed texts h =>
    rw [failed?_cons_of_failed h] at hf
    cases hf
  | went h rest ih =>
    rw [failed?_cons_of_succeeded h] at hf
    rw [List.map_cons, ih hf]

/-- After a text that fails none is run. -/
theorem Follow.texts_of_failed (h : runs.Follow texts) {x : String × Output} (hf : runs.failed? = some x) :
    ∃ before after, texts = before ++ x.1 :: after ∧ runs.map Prod.fst = before ++ [x.1] := by
  induction h with
  | done => cases hf
  | @failed text out texts h =>
    rw [failed?_cons_of_failed h] at hf
    cases hf
    exact ⟨[], texts, rfl, rfl⟩
  | @went text out runs texts h rest ih =>
    rw [failed?_cons_of_succeeded h] at hf
    obtain ⟨before, after, rfl, hruns⟩ := ih hf
    exact ⟨text :: before, after, rfl, by rw [List.map_cons, hruns, List.cons_append]⟩

/-- Texts that end with the same exit codes are run as far as each other. -/
theorem Follow.codes_eq (h : runs.Follow texts) (h' : runs'.Follow texts)
    (hsame : ∀ x ∈ runs.zip runs', x.1.1 = x.2.1 → x.1.2.code = x.2.2.code) :
    runs.map (fun x => (x.1, x.2.code)) = runs'.map fun x => (x.1, x.2.code) := by
  induction h generalizing runs' with
  | done =>
    cases h'
    rfl
  | @failed text out texts h =>
    cases h' with
    | failed _ h' =>
      have hcode := hsame _ List.mem_cons_self rfl
      simpa using hcode
    | went h' _ =>
      have hcode : out.code = _ := hsame _ List.mem_cons_self rfl
      rw [Output.succeeded, hcode, ← Output.succeeded, h'] at h
      cases h
  | @went text out runs texts h rest ih =>
    cases h' with
    | failed _ h' =>
      have hcode : out.code = _ := hsame _ List.mem_cons_self rfl
      rw [Output.succeeded, hcode, ← Output.succeeded, h'] at h
      cases h
    | went h' rest' =>
      rw [List.zip_cons_cons, List.forall_mem_cons] at hsame
      have hcode : out.code = _ := hsame.1 rfl
      rw [List.map_cons, List.map_cons, ih rest' hsame.2]
      simpa using hcode

/-- The first text that failed is told by the exit codes. -/
theorem failed?_of_codes (h : runs.map (fun x => (x.1, x.2.code)) = runs'.map fun x => (x.1, x.2.code)) :
    runs.failed?.map (fun x => (x.1, x.2.code)) = runs'.failed?.map fun x => (x.1, x.2.code) := by
  have hfailed (runs : TextRuns) : runs.failed?.map (fun x => (x.1, x.2.code)) =
      (runs.map fun x => (x.1, x.2.code)).find? fun x => !(x.2 == some 0) := by
    rw [List.find?_map]
    rfl
  rw [hfailed, hfailed, h]

end TextRuns

namespace Plan

/-- Shell texts run one after the other, after those whose outputs are given: the first that fails ends the
plan with its error, and otherwise the plan goes on with an output for each. -/
def shellFrom (call : String → Call) (cleanup : Option Call) (shown complaint : Output → String)
    (next : List String → Plan) (outputs : List String) : List String → Plan
  | [] => next outputs
  | text :: texts =>
    run (call text) cleanup fun out =>
      if out.succeeded then shellFrom call cleanup shown complaint next (outputs ++ [shown out]) texts
      else .done cleanup (.error (.commandFailed text out.reportedCode (complaint out)))

theorem execFrom_eq (binary id shell : String) (env : Bindings) (next : List String → Plan)
    (outputs texts : List String) :
    execFrom binary id shell env outputs next texts =
      shellFrom (fun text => ⟨binary, execArgs id shell env text, .empty⟩) (some (forceRemoval binary id))
        (fun out => Text.withoutControl out.text) (fun out => Text.withoutControl out.complaint) next outputs
        texts := by
  induction texts generalizing outputs with
  | nil => rfl
  | cons text texts ih => simp only [execFrom, shellFrom, ih]

/-- The steps on the host before some others. -/
theorem hostFrom_append {handlers : Handlers} {shell : String} {env : Bindings} {commands : List Command}
    {texts : List String} (h : List.Forall₂ (fun c text => handlers.render c = .ok text) commands texts)
    (outputs : List String) (rest : List Command) :
    hostFrom handlers shell env outputs (commands ++ rest) =
      shellFrom (hostCall shell env) none (fun out => Text.trimEnd out.text) (fun out => Text.trim out.complaint)
        (fun outputs => hostFrom handlers shell env outputs rest) outputs texts := by
  induction h generalizing outputs with
  | nil => rfl
  | cons hc _ ih => simp only [List.cons_append, hostFrom, shellFrom, hc, ih]

namespace Course

variable {c : Call} {cleanup : Option Call} {deeds : List Deed} {result : Option AttemptResult}

/-- A call that has to succeed, in a course in which all calls come to their ends. -/
theorem of_smooth {onward : Output → Plan} {error : Output → BackendError}
    (h : (run c cleanup fun out => if out.succeeded then onward out else .done cleanup (.error (error out))).Course
      deeds result) (hd : ∀ d ∈ deeds, d.isSmooth = true) :
    ∃ out rest, deeds = .call c (some (.ended out)) :: rest ∧
      (out.succeeded = false ∧ rest = clearing cleanup ∧ result = some (.error (error out)) ∨
        out.succeeded = true ∧ (onward out).Course rest result) := by
  obtain ⟨rfl, _⟩ | ⟨reason, rfl, _⟩ | ⟨out, rest, rfl, hnext⟩ := of_run h
  · cases hd _ List.mem_cons_self
  · cases hd _ List.mem_cons_self
  · refine ⟨out, rest, rfl, ?_⟩
    cases ho : out.succeeded with
    | true => exact .inr ⟨rfl, by simpa only [ho, if_true] using hnext⟩
    | false => exact .inl ⟨rfl, done_iff.1 (by simpa [ho] using hnext)⟩

/-- A call of the container program, in a course in which it does its part. -/
theorem of_lifecycle {binary operation image : String} {args : List String} {next : String → Plan}
    (h : (lifecycle binary operation image args cleanup next).Course deeds result)
    (hd : ∀ d ∈ deeds, d.isSmooth = true) (htext : (Call.mk binary args .empty).text? = none)
    (himage : args.head? ≠ some "image") :
    ∃ out rest, deeds = .call ⟨binary, args, .empty⟩ (some (.ended out)) :: rest ∧
      (next (Text.trim out.text)).Course rest result := by
  obtain ⟨out, rest, rfl, ⟨ho, _⟩ | ⟨_, hnext⟩⟩ := of_smooth h hd
  · have hsmooth := hd _ List.mem_cons_self
    simp [Deed.isSmooth, htext, himage, ho] at hsmooth
  · exact ⟨out, rest, rfl, hnext⟩

/-- Shell texts are run until one fails, and its failure is the answer. Otherwise the answer is that of what
comes after them, if this runs no text any more. -/
theorem of_shellFrom {call : String → Call} {shown complaint : Output → String} {next : List String → Plan}
    (onward : List String → AttemptResult) {outputs texts : List String}
    (hcall : ∀ text, (call text).text? = some text)
    (hnext : ∀ {outputs deeds result}, (next outputs).Course deeds result → (∀ d ∈ deeds, d.isSmooth = true) →
      TextRuns.ofDeeds deeds = [] ∧ result = some (onward outputs))
    (h : (shellFrom call cleanup shown complaint next outputs texts).Course deeds result)
    (hd : ∀ d ∈ deeds, d.isSmooth = true) :
    (TextRuns.ofDeeds deeds).Follow texts ∧
      result = some ((TextRuns.ofDeeds deeds).answer complaint
        (onward (outputs ++ (TextRuns.ofDeeds deeds).map fun x => shown x.2))) := by
  induction texts generalizing outputs deeds with
  | nil =>
    obtain ⟨hnone, rfl⟩ := hnext h hd
    rw [hnone, TextRuns.answer_of_none rfl, List.map_nil, List.append_nil]
    exact ⟨.done, rfl⟩
  | cons text texts ih =>
    obtain ⟨out, rest, rfl, ⟨ho, rfl, rfl⟩ | ⟨ho, hrest⟩⟩ := of_smooth h hd
    · rw [TextRuns.ofDeeds_call (hcall text), TextRuns.ofDeeds_clearing,
        TextRuns.answer_of_failed (TextRuns.failed?_cons_of_failed ho [])]
      exact ⟨.failed texts ho, rfl⟩
    · obtain ⟨hfollow, rfl⟩ := ih hrest fun d hd' => hd d (List.mem_cons_of_mem _ hd')
      rw [TextRuns.ofDeeds_call (hcall text)]
      refine ⟨.went ho hfollow, ?_⟩
      rw [TextRuns.answer, TextRuns.answer, TextRuns.failed?_cons_of_succeeded ho, List.map_cons,
        List.append_assoc, List.singleton_append]

end Course

end Plan

/-! ### Attempts -/

theorem Call.text?_exec (binary id shell : String) (env : Bindings) (text : String) :
    (Call.mk binary (Plan.execArgs id shell env text) .empty).text? = some text := by
  simp [Call.text?, Plan.execArgs]

/-- Steps that are rendered to texts. -/
abbrev Handlers.Renders (handlers : Handlers) (steps : List Step) (texts : List String) : Prop :=
  List.Forall₂ (fun s text => handlers.render s.toCommand = .ok text) steps texts

namespace Plan.Course

variable {handlers : Handlers} {unit : UnitOfWork} {deeds : List Deed} {result : Option AttemptResult}
  {texts : List String} {config : BackendConfig} {image : String}

/-- On the host the texts of steps are run, and then it is seen what is made of the steps after them. -/
theorem of_host {shell : String} {before after : List Step} (onward : List String → AttemptResult)
    (h : (host handlers shell unit).Course deeds result) (hd : ∀ d ∈ deeds, d.isSmooth = true)
    (hsteps : unit.steps = before ++ after) (htexts : handlers.Renders before texts)
    (hafter : ∀ outputs, hostFrom handlers shell unit.env outputs (after.map Step.toCommand)
      = .done none (onward outputs)) :
    (TextRuns.ofDeeds deeds).Follow texts ∧
      result = some ((TextRuns.ofDeeds deeds).answer (fun out => Text.trim out.complaint)
        (onward ((TextRuns.ofDeeds deeds).map fun x => Text.trimEnd x.2.text))) := by
  have hcommands : List.Forall₂ (fun c text => handlers.render c = .ok text) (before.map Step.toCommand) texts :=
    List.forall₂_map_left_iff.2 htexts
  rw [host, UnitOfWork.commands, hsteps, List.map_append, hostFrom_append hcommands] at h
  refine of_shellFrom onward (fun _ => rfl) (fun {outputs _ _} hrest _ => ?_) h hd
  rw [hafter outputs] at hrest
  obtain ⟨rfl, rfl⟩ := done_iff.1 hrest
  exact ⟨rfl, rfl⟩

/-- In a container in which the container program does its part the texts are run. -/
theorem of_inContainer {binary id shell : String} {env : Bindings}
    (h : (inContainer binary id shell image env texts).Course deeds result) (hd : ∀ d ∈ deeds, d.isSmooth = true) :
    (TextRuns.ofDeeds deeds).Follow texts ∧
      result = some ((TextRuns.ofDeeds deeds).answer (fun out => Text.withoutControl out.complaint)
        (.ok ((TextRuns.ofDeeds deeds).map fun x => Text.withoutControl x.2.text))) := by
  unfold inContainer at h
  obtain ⟨_, rest, rfl, hexec⟩ := of_lifecycle h hd rfl (by simp)
  rw [execFrom_eq] at hexec
  rw [TextRuns.ofDeeds_lifecycle rfl]
  refine of_shellFrom .ok (Call.text?_exec binary id shell env) (fun hrest hsmooth => ?_) hexec
    fun d hd' => hd d (List.mem_cons_of_mem _ hd')
  obtain ⟨_, deeds, rfl, hremove⟩ := of_lifecycle hrest hsmooth rfl (by simp)
  rw [TextRuns.ofDeeds_lifecycle rfl]
  cases hremove with
  | dropped => cases hsmooth _ (List.mem_cons_of_mem _ List.mem_cons_self)
  | went r hdone =>
    obtain ⟨rfl, rfl⟩ := done_iff.1 hdone
    exact ⟨TextRuns.ofDeeds_lifecycle rfl _ _, rfl⟩

/-- The image is made sure of without a shell text. -/
theorem of_ensureImage {binary : String} {policy : PullPolicy} {next : Plan}
    (h : (ensureImage binary policy image next).Course deeds result) (hd : ∀ d ∈ deeds, d.isSmooth = true) :
    ∃ rest, next.Course rest result ∧ rest ⊆ deeds ∧ TextRuns.ofDeeds deeds = TextRuns.ofDeeds rest := by
  have hpull : ∀ {deeds}, (lifecycle binary "pull" image ["pull", image] none fun _ => next).Course deeds result →
      (∀ d ∈ deeds, d.isSmooth = true) →
      ∃ rest, next.Course rest result ∧ rest ⊆ deeds ∧ TextRuns.ofDeeds deeds = TextRuns.ofDeeds rest := by
    intro deeds h hd
    obtain ⟨_, rest, rfl, hnext⟩ := of_lifecycle h hd rfl (by simp)
    exact ⟨rest, hnext, List.subset_cons_self _ _, TextRuns.ofDeeds_lifecycle rfl _ _⟩
  cases policy with
  | never => exact ⟨deeds, h, List.Subset.refl _, rfl⟩
  | always => exact hpull h hd
  | ifNotPresent =>
    obtain ⟨rfl, _⟩ | ⟨reason, rfl, _⟩ | ⟨out, rest, rfl, hnext⟩ := of_run h
    · cases hd _ List.mem_cons_self
    · cases hd _ List.mem_cons_self
    · rw [TextRuns.ofDeeds_lifecycle rfl]
      split at hnext
      · exact ⟨rest, hnext, List.subset_cons_self _ _, rfl⟩
      · obtain ⟨last, hlast, hsub, heq⟩ := hpull hnext fun d hd' => hd d (List.mem_cons_of_mem _ hd')
        exact ⟨last, hlast, List.subset_cons_of_subset _ hsub, heq⟩

/-- A unit in a container whose steps can all be rendered. -/
theorem of_container (h : (ensureImage config.dockerBinary config.pullPolicy image <|
      lifecycle config.dockerBinary "create" image (createArgs config.containerShell image) none fun id =>
        inContainer config.dockerBinary id config.containerShell image unit.env texts).Course deeds result)
    (hd : ∀ d ∈ deeds, d.isSmooth = true) :
    (TextRuns.ofDeeds deeds).Follow texts ∧
      result = some ((TextRuns.ofDeeds deeds).answer (fun out => Text.withoutControl out.complaint)
        (.ok ((TextRuns.ofDeeds deeds).map fun x => Text.withoutControl x.2.text))) := by
  obtain ⟨_, hcreate, hsub, heq⟩ := of_ensureImage h hd
  obtain ⟨_, rest, rfl, hlife⟩ := of_lifecycle hcreate (fun d hd' => hd d (hsub hd')) rfl (by simp [createArgs])
  rw [heq, TextRuns.ofDeeds_lifecycle rfl]
  exact of_inContainer hlife fun d hd' => hd d (hsub (List.mem_cons_of_mem _ hd'))

end Plan.Course

/-- Steps that are rendered are read as their texts, whatever comes after them. -/
theorem Handlers.Renders.mapM_append {handlers : Handlers} {steps : List Step} {texts : List String}
    (h : handlers.Renders steps texts) (rest : List Step) :
    ((steps ++ rest).map Step.toCommand).mapM handlers.render =
      ((rest.map Step.toCommand).mapM handlers.render).map (texts ++ ·) := by
  induction h with
  | nil =>
    rw [List.nil_append]
    cases (rest.map Step.toCommand).mapM handlers.render <;> rfl
  | cons hs _ ih =>
    rw [List.cons_append, List.map_cons, List.mapM_cons, hs, ih]
    cases (rest.map Step.toCommand).mapM handlers.render <;> rfl

/-- Either all steps are rendered, or there is a first that is not. -/
theorem Handlers.renders_or_not (handlers : Handlers) (steps : List Step) :
    (∃ texts, handlers.Renders steps texts) ∨
      ∃ before step after texts e, steps = before ++ step :: after ∧ handlers.Renders before texts ∧
        handlers.render step.toCommand = .error e := by
  induction steps with
  | nil => exact .inl ⟨[], .nil⟩
  | cons step steps ih =>
    cases he : handlers.render step.toCommand with
    | error e => exact .inr ⟨[], step, steps, [], e, rfl, .nil, he⟩
    | ok text =>
      obtain ⟨texts, h⟩ | ⟨before, next, after, texts, e, rfl, h, hnext⟩ := ih
      · exact .inl ⟨text :: texts, .cons he h⟩
      · exact .inr ⟨step :: before, next, after, text :: texts, e, rfl, .cons he h, hnext⟩

/-- Attempts at the same steps on the host and in a container.
`total`: all steps are rendered, or there is a first that is not.
`codes`: the same texts have been run, and have ended with the same exit codes.
`succeeded`: if no text has failed, all have been run, and there is an output for each.
`failed`: the first text that failed is the last that was run, and its failure is the answer of both.
`unrendered`: the first step that cannot be rendered is the answer of the container, in which nothing was called,
and if no text has failed that of the host, on which the texts of the steps before it were run. -/
structure ShellsAgree (handlers : Handlers) (steps : List Step) (hostDeeds boxDeeds : List Deed)
    (hostResult boxResult : Option AttemptResult) : Prop where
  total : (∃ texts, handlers.Renders steps texts) ∨
    ∃ before step after texts e, steps = before ++ step :: after ∧ handlers.Renders before texts ∧
      handlers.render step.toCommand = .error e
  codes : ∀ texts, handlers.Renders steps texts →
    (TextRuns.ofDeeds hostDeeds).map (fun x => (x.1, x.2.code)) =
      (TextRuns.ofDeeds boxDeeds).map fun x => (x.1, x.2.code)
  succeeded : ∀ texts, handlers.Renders steps texts → (TextRuns.ofDeeds hostDeeds).failed? = none →
    (TextRuns.ofDeeds hostDeeds).map Prod.fst = texts ∧ (TextRuns.ofDeeds boxDeeds).map Prod.fst = texts ∧
      ∃ outputs outputs', hostResult = some (.ok outputs) ∧ boxResult = some (.ok outputs') ∧
        outputs = (TextRuns.ofDeeds hostDeeds).map (fun x => Text.trimEnd x.2.text) ∧
        outputs' = (TextRuns.ofDeeds boxDeeds).map (fun x => Text.withoutControl x.2.text) ∧
        outputs.length = steps.length ∧ outputs'.length = steps.length
  failed : ∀ texts text out, handlers.Renders steps texts →
    (TextRuns.ofDeeds hostDeeds).failed? = some (text, out) →
    ∃ before after, texts = before ++ text :: after ∧
      (TextRuns.ofDeeds hostDeeds).map Prod.fst = before ++ [text] ∧
      (TextRuns.ofDeeds boxDeeds).map Prod.fst = before ++ [text] ∧
      ∃ stderr stderr', hostResult = some (.error (.commandFailed text out.reportedCode stderr)) ∧
        boxResult = some (.error (.commandFailed text out.reportedCode stderr'))
  unrendered : ∀ before step after texts e, steps = before ++ step :: after → handlers.Renders before texts →
    handlers.render step.toCommand = .error e →
    boxDeeds = [] ∧ boxResult = some (.error e) ∧
      ((TextRuns.ofDeeds hostDeeds).failed? = none →
        (TextRuns.ofDeeds hostDeeds).map Prod.fst = texts ∧ hostResult = some (.error e))

namespace Plan.Course

variable {handlers : Handlers} {host box : UnitOfWork} {shell image : String} {config : BackendConfig}
  {hostDeeds boxDeeds : List Deed} {hostResult boxResult : Option AttemptResult}

theorem shellsAgree (hhost : (Plan.host handlers shell host).Course hostDeeds hostResult)
    (hbox : (container handlers config box).Course boxDeeds boxResult) (himage : box.agent.image? = some image)
    (hsteps : box.steps = host.steps) (hostSmooth : ∀ d ∈ hostDeeds, d.isSmooth = true)
    (boxSmooth : ∀ d ∈ boxDeeds, d.isSmooth = true)
    (hsame : ∀ x ∈ (TextRuns.ofDeeds hostDeeds).zip (TextRuns.ofDeeds boxDeeds),
      x.1.1 = x.2.1 → x.1.2.code = x.2.2.code) :
    ShellsAgree handlers host.steps hostDeeds boxDeeds hostResult boxResult := by
  have onHost {texts : List String} (h : handlers.Renders host.steps texts) :=
    of_host .ok hhost hostSmooth (List.append_nil _).symm h fun _ => rfl
  have inBox {texts : List String} (h : handlers.Renders host.steps texts) :
      (TextRuns.ofDeeds boxDeeds).Follow texts ∧
        boxResult = some ((TextRuns.ofDeeds boxDeeds).answer (fun out => Text.withoutControl out.complaint)
          (.ok ((TextRuns.ofDeeds boxDeeds).map fun x => Text.withoutControl x.2.text))) := by
    have hall : (host.steps.map Step.toCommand).mapM handlers.render = .ok texts := by
      have hall := h.mapM_append []
      rw [List.append_nil] at hall
      exact hall.trans (congrArg Except.ok (List.append_nil texts))
    rw [container, himage, UnitOfWork.commands, hsteps, hall] at hbox
    exact of_container hbox boxSmooth
  have codes {texts : List String} (h : handlers.Renders host.steps texts) :=
    (onHost h).1.codes_eq (inBox h).1 hsame
  refine ⟨handlers.renders_or_not host.steps, fun texts h => codes h, ?_, ?_, ?_⟩
  · intro texts h hnone
    have hnone' : (TextRuns.ofDeeds boxDeeds).failed? = none := by
      simpa [hnone] using (TextRuns.failed?_of_codes (codes h)).symm
    obtain ⟨hfollow, rfl⟩ := onHost h
    obtain ⟨hfollow', rfl⟩ := inBox h
    have htexts := hfollow.texts_eq hnone
    have htexts' := hfollow'.texts_eq hnone'
    have hlength := h.length_eq
    refine ⟨htexts, htexts', _, _, by rw [TextRuns.answer_of_none hnone], by rw [TextRuns.answer_of_none hnone'],
      rfl, rfl, ?_, ?_⟩
    · rw [hlength, ← htexts, List.length_map, List.length_map]
    · rw [hlength, ← htexts', List.length_map, List.length_map]
  · intro texts text out h hfailed
    obtain ⟨⟨text', out'⟩, hfailed', hcode⟩ :
        ∃ x, (TextRuns.ofDeeds boxDeeds).failed? = some x ∧ (x.1, x.2.code) = (text, out.code) := by
      have hboth := TextRuns.failed?_of_codes (codes h)
      rw [hfailed, eq_comm] at hboth
      exact Option.map_eq_some_iff.1 hboth
    obtain ⟨rfl, hcodes⟩ : text' = text ∧ out'.code = out.code := Prod.mk.inj hcode
    have hreported : out'.reportedCode = out.reportedCode := by
      rw [Output.reportedCode, Output.reportedCode, hcodes]
    have hfst : (TextRuns.ofDeeds hostDeeds).map Prod.fst = (TextRuns.ofDeeds boxDeeds).map Prod.fst := by
      have hmap := congrArg (List.map Prod.fst) (codes h)
      rw [List.map_map, List.map_map] at hmap
      exact hmap
    obtain ⟨hfollow, rfl⟩ := onHost h
    obtain ⟨-, rfl⟩ := inBox h
    obtain ⟨before, after, rfl, hruns⟩ := hfollow.texts_of_failed hfailed
    refine ⟨before, after, rfl, hruns, hfst.symm.trans hruns, Text.trim out.complaint,
      Text.withoutControl out'.complaint, ?_, ?_⟩
    · rw [TextRuns.answer_of_failed hfailed]
    · rw [TextRuns.answer_of_failed hfailed', hreported]
  · intro before step after texts e hsplit h he
    have hnone : (box.steps.map Step.toCommand).mapM handlers.render = .error e := by
      rw [hsteps, hsplit, h.mapM_append, List.map_cons, List.mapM_cons, he]
      rfl
    rw [container, himage, UnitOfWork.commands, hnone] at hbox
    obtain ⟨rfl, rfl⟩ := done_iff.1 hbox
    refine ⟨rfl, rfl, fun hnofail => ?_⟩
    have hstop (outputs : List String) : hostFrom handlers shell host.env outputs
        ((step :: after).map Step.toCommand) = .done none (.error e) := by
      rw [List.map_cons, hostFrom, he]
    obtain ⟨hfollow, rfl⟩ := of_host (fun _ => .error e) hhost hostSmooth hsplit h hstop
    exact ⟨hfollow.texts_eq hnofail, by rw [TextRuns.answer_of_none hnofail]⟩

end Plan.Course

namespace Backend

variable {M N : Type}

def traced (p : Programs M) (planOf : UnitOfWork → Plan) (unit : UnitOfWork) (now : Nat) (looks : List Nat) (m : M) :
    List Deed × Option AttemptResult :=
  (((planned p.watched planOf).attempt unit now looks (m, [])).1.2, ((planned p planOf).attempt unit now looks m).2)

/-- The calls of an attempt and its result are those of a course through the plan. -/
theorem course_traced (p : Programs M) (planOf : UnitOfWork → Plan) (unit : UnitOfWork) (now : Nat)
    (looks : List Nat) (m : M) :
    (planOf unit).Course (traced p planOf unit now looks m).1 (traced p planOf unit now looks m).2 := by
  obtain ⟨deeds, hwatched, hcourse⟩ := attempt_watched p planOf unit now looks m
  rw [traced, hwatched]
  exact hcourse

/-- Attempts at the same steps on the host and in a container agree, whatever the steps and the programs, if all
calls come to their ends, those that make the container ready and remove it with success, and a shell text that is
run at the same place in both ends with the same exit code. -/
theorem shells_agree (p : Programs M) (q : Programs N) (handlers : Handlers) (shell : String)
    (config : BackendConfig) (host box : UnitOfWork) (image : String) (himage : box.agent.image? = some image)
    (hsteps : box.steps = host.steps) (now now' : Nat) (looks looks' : List Nat) (m : M) (n : N)
    (hostSmooth : ∀ d ∈ (traced p (Plan.host handlers shell) host now looks m).1, d.isSmooth = true)
    (boxSmooth : ∀ d ∈ (traced q (Plan.container handlers config) box now' looks' n).1, d.isSmooth = true)
    (hsame : ∀ x ∈ (TextRuns.ofDeeds (traced p (Plan.host handlers shell) host now looks m).1).zip
        (TextRuns.ofDeeds (traced q (Plan.container handlers config) box now' looks' n).1),
      x.1.1 = x.2.1 → x.1.2.code = x.2.2.code) :
    ShellsAgree handlers host.steps (traced p (Plan.host handlers shell) host now looks m).1
      (traced q (Plan.container handlers config) box now' looks' n).1
      (traced p (Plan.host handlers shell) host now looks m).2
      (traced q (Plan.container handlers config) box now' looks' n).2 :=
  Plan.Course.shellsAgree (course_traced p _ host now looks m) (course_traced q _ box now' looks' n) himage hsteps
    hostSmooth boxSmooth hsame

def threeSteps (agent : Agent) : UnitOfWork :=
  ⟨"unit", [.single "echo" "one", .single "false" "", .single "echo" "two"], agent, .empty⟩

/-- The second of three steps fails with exit code 1 on the host. -/
def threeOnHost : List Deed × Option AttemptResult :=
  traced prepared (Plan.host .builtins "sh") (threeSteps .none) 0 [] [.ended {}, .ended { code := some 1 }, .ended {}]

/-- The second of three steps fails with exit code 1 in a container, once that is created and started. -/
def threeInBox : List Deed × Option AttemptResult :=
  traced prepared (Plan.container .builtins {}) (threeSteps (.container "alpine")) 0 []
    [.ended {}, .ended { stdout := [99] }, .ended {}, .ended {}, .ended { code := some 1 }]

theorem shells_agree_three_steps :
    ShellsAgree .builtins (threeSteps .none).steps threeOnHost.1 threeInBox.1 threeOnHost.2 threeInBox.2 ∧
      TextRuns.ofDeeds threeOnHost.1 = [("echo 'one'", {}), ("false ''", { code := some 1 })] ∧
      threeInBox.2 = some (.error (.commandFailed "false ''" 1 "")) :=
  ⟨shells_agree prepared prepared .builtins "sh" {} (threeSteps .none) (threeSteps (.container "alpine"))
    "alpine:latest" rfl rfl 0 0 [] [] [.ended {}, .ended { code := some 1 }, .ended {}]
    [.ended {}, .ended { stdout := [99] }, .ended {}, .ended {}, .ended { code := some 1 }]
    (by decide +kernel) (by decide +kernel) (by decide +kernel), by decide +kernel, by decide +kernel⟩

end Backend

end StageTree
