import StageTree.CommandLine.Answer
import StageTree.Proofs.Run.Turned

/-! How runs end, and what the command line makes of it. A source that `check` accepts is one that `run` does not
turn away, and the exit code of `run` says whether the run ended with an error. -/

namespace StageTree

variable {M : Type}

/-- How the run of a source ends under a configuration, in whatever order its stages go on and however it is
cancelled. -/
structure Config.Ends (c : Config) (programs : Programs M) (vars : Bindings) (m : M) (source : String) : Prop where
  rejected : ∀ cancels e, (c.launch programs vars cancels m source).outcome.error = some e ∧ e.isRejection = true ↔
    c.Rejects source e
  untouched : ∀ cancels e, c.Rejects source e →
    let r := c.launch programs vars cancels m source
    r.world = m ∧ r.trace = [] ∧ r.events = [] ∧ r.outcome.results = .empty ∧ r.outcome.records = []
  begun : ∀ p, c.Admits source p → ∀ moves r, (Run.begin p m).moved (c.setting programs vars) moves = some r →
    r.verdict.isSome = true → (∀ e, r.outcome.error = some e → e.isRejection = false) ∧ r.outcome.records ≠ []
  played : ∀ p, c.Admits source p → ∀ cancels, ∃ moves,
    (Run.begin p m).moved (c.setting programs vars) moves = some (c.launch programs vars cancels m source) ∧
      (c.launch programs vars cancels m source).verdict.isSome = true

theorem Config.ends (c : Config) (programs : Programs M) (vars : Bindings) (m : M) (source : String) :
    c.Ends programs vars m source := by
  have hplain := (c.runner_onTime programs).provided.plain
  have begun (p : Pipeline) (hp : c.Admits source p) (moves : List Move) (r : Run M (Trial Hanging))
      (h : (Run.begin p m).moved (c.setting programs vars) moves = some r) (hover : r.verdict.isSome = true) :=
    Run.outcome_of_moved (Pipeline.proper_of_violation?_eq_none hp.validation) hplain h hover
  refine ⟨fun cancels e => ⟨?_, fun h => ?_⟩, fun cancels e h => ?_, begun, fun p h cancels => ?_⟩
  · rintro ⟨herror, he⟩
    rcases c.rejects_or_admits source with ⟨e', h⟩ | ⟨p, h⟩
    · rw [h.launch_eq] at herror
      rwa [← Option.some.inj herror]
    · obtain ⟨moves, hmoves, hover⟩ := h.exists_moved programs vars cancels m
      rw [(begun p h moves _ hmoves hover).1 e herror] at he
      cases he
  · rw [h.launch_eq]
    exact ⟨rfl, h.isRejection⟩
  · rw [h.launch_eq]
    exact ⟨rfl, rfl, rfl, rfl, rfl⟩
  · exact h.exists_moved programs vars cancels m

namespace CommandLine

/-- An answer that tells of a file which does not parse. -/
def Answer.TellsUnparsed (a : Answer) (file : String) : Prop :=
  ∃ message, a.ending = .failure ["failed to parse " ++ file, message]

/-- An answer that tells of a run which was turned away since its pipeline breaks a rule. -/
def Answer.TellsInvalid (a : Answer) : Prop :=
  ∃ message, a.stderr = "pipeline failed (validation): " ++ message

/-- A folder that takes the text which an answer writes, if it writes one. -/
def Answer.IsWritable (a : Answer) (f : Folder) : Prop :=
  ∀ path text, a.file = some (path, text) → ∃ f', f.write path text.toUTF8.toList = .ok f'

/-! ### The answers -/

theorem report_ending (output : Option String) (o : Outcome) :
    (report output o).ending = .exit (if o.error = none then 0 else 1) := by
  rw [report, Outcome.isSuccess]
  cases o.error <;> rfl

theorem writeTo_eq {a : Answer} {f : Folder} (h : a.IsWritable f) : (a.writeTo f).2 = a := by
  rw [Answer.writeTo]
  split
  · rfl
  · rename_i path text hfile
    obtain ⟨f', hwrite⟩ := h path text hfile
    rw [hwrite]

/-- Only a validation error is told as one. -/
theorem tellsInvalid_iff (output : Option String) (o : Outcome) :
    (report output o).TellsInvalid ↔ ∃ e, o.error = some (.validation e) := by
  have hsplit : "pipeline failed (validation): " = "pipeline failed (" ++ "validation): " := by decide
  rw [Answer.TellsInvalid, report]
  cases ho : o.error with
  | none =>
    refine ⟨fun ⟨message, h⟩ => ?_, fun ⟨e, h⟩ => by cases h⟩
    have hhead := congrArg (fun s => s.toList.head?) h
    simp at hhead
  | some e =>
    constructor
    · rintro ⟨message, h⟩
      simp only [hsplit, String.append_assoc, String.append_right_inj] at h
      -- what follows is the kind of the error, and that of a validation error starts with another letter
      have hhead := congrArg (fun s => s.toList.head?) h
      cases e with
      | validation e => exact ⟨e, rfl⟩
      | _ => simp [RunError.kind] at hhead
    · rintro ⟨e', he'⟩
      obtain rfl := Option.some.inj he'
      refine ⟨(RunError.validation e').message ++ "\n", ?_⟩
      simp only [hsplit, String.append_assoc, RunError.kind]
      rfl

theorem not_tellsInvalid_of_moved {c : Config} {programs : Programs M} {vars : Bindings} {m : M} {source : String}
    {p : Pipeline} (h : c.Admits source p) (output : Option String) {moves : List Move} {r : Run M (Trial Hanging)}
    (hr : (Run.begin p m).moved (c.setting programs vars) moves = some r) (hover : r.verdict.isSome = true) :
    ¬ (report output r.outcome).TellsInvalid := by
  rw [tellsInvalid_iff]
  rintro ⟨e, he⟩
  cases ((c.ends programs vars m source).begun p h moves r hr hover).1 _ he

section

variable {programs : Programs M} {read : String → Contents} {m : M} {file source : String} {config : Option String}
  {vars : List (String × String)} {output : Option String} {c : Config}

theorem fault?_of_ofFile {path : String} {contents : Contents} (h : Config.ofFile path contents = .ok c) :
    c.fault? = none := by
  rw [Config.ofFile] at h
  split at h
  · cases h
  · rw [Config.ofText] at h
    split at h
    · cases h
    · rw [Config.checked] at h
      split at h
      · cases h
      · rename_i hnone
        rwa [Except.ok.inj h] at hnone

/-- A configuration that is loaded keeps the rules. -/
theorem fault?_of_loadConfig (h : loadConfig read config = .ok c) : c.fault? = none := by
  cases config with
  | none =>
    obtain rfl := Except.ok.inj h
    decide
  | some path =>
    cases hfile : Config.ofFile path (read path) with
    | error f =>
      rw [loadConfig, hfile] at h
      cases h
    | ok c' =>
      rw [loadConfig, hfile] at h
      obtain rfl : c' = c := Except.ok.inj h
      exact fault?_of_ofFile hfile

theorem loadPipeline_eq (h : (read file).text = .ok source) : loadPipeline read file =
    (Source.parse source).mapError fun e => ["failed to parse " ++ file, e.message] := by
  rw [loadPipeline, h]

/-- The answer of `run` is made from the run of the source. -/
theorem answer_run (hs : (read file).text = .ok source) (hc : loadConfig read config = .ok c) {p : Pipeline}
    (hp : Source.parse source = .ok p) : (Request.run file config vars output).answer programs read m =
      ((c.launch programs (.ofList vars) [] m source).world,
        report output (c.launch programs (.ofList vars) [] m source).outcome) := by
  have hl : loadPipeline read file = .ok p := by rw [loadPipeline_eq hs, hp, Except.mapError]
  simp only [Request.answer, hc, hl, Config.launch, fault?_of_loadConfig hc, hp]

theorem answer_unparsed (hs : (read file).text = .ok source) (hc : loadConfig read config = .ok c) {e : Source.Error}
    (he : Source.parse source = .error e) (q : Request) (hq : q = .check file ∨ q = .run file config vars output) :
    (q.answer programs read m).2 = .fail ["failed to parse " ++ file, e.message] := by
  have hl : loadPipeline read file = .error ["failed to parse " ++ file, e.message] := by
    rw [loadPipeline_eq hs, he, Except.mapError]
  rcases hq with rfl | rfl <;> simp only [Request.answer, hc, hl]

/-- What `check` and `run` answer about a file that holds a source, `run` under a configuration that was loaded. -/
structure Agrees (programs : Programs M) (read : String → Contents) (m : M) (file source : String)
    (config : Option String) (vars : List (String × String)) (output : Option String) (c : Config) : Prop where
  valid : c.fault? = none
  checked : ((Request.check file).answer programs read m).2.ending = .exit 0 ↔
    ¬ ((Request.run file config vars output).answer programs read m).2.TellsUnparsed file ∧
      ¬ ((Request.run file config vars output).answer programs read m).2.TellsInvalid
  answered : ∀ p, Source.parse source = .ok p → (Request.run file config vars output).answer programs read m =
    ((c.launch programs (.ofList vars) [] m source).world,
      report output (c.launch programs (.ofList vars) [] m source).outcome)
  interrupted : ∀ p, c.Admits source p → ∀ moves r,
    (Run.begin p m).moved (c.setting programs (.ofList vars)) moves = some r → r.verdict.isSome = true →
      ¬ (report output r.outcome).TellsInvalid
  exits : ∀ o f, (report output o).IsWritable f →
    ((report output o).writeTo f).2.ending = .exit (if o.error = none then 0 else 1)

theorem agrees (hs : (read file).text = .ok source) (hc : loadConfig read config = .ok c) :
    Agrees programs read m file source config vars output c where
  valid := fault?_of_loadConfig hc
  answered p hp := answer_run hs hc hp
  interrupted p hp moves r hr hover := not_tellsInvalid_of_moved hp output hr hover
  exits o f h := by rw [writeTo_eq h, report_ending]
  checked := by
    have hvalid := fault?_of_loadConfig hc
    cases hp : Source.parse source with
    | error e =>
      have hanswer (q : Request) (hq : q = .check file ∨ q = .run file config vars output) :
          (q.answer programs read m).2 = .fail ["failed to parse " ++ file, e.message] :=
        answer_unparsed hs hc hp q hq
      rw [hanswer _ (.inl rfl), hanswer _ (.inr rfl)]
      refine ⟨fun h => (by cases h), fun h => absurd ⟨e.message, rfl⟩ h.1⟩
    | ok p =>
      have hl : loadPipeline read file = .ok p := by rw [loadPipeline_eq hs, hp, Except.mapError]
      have hparsed : ¬ ((Request.run file config vars output).answer programs read m).2.TellsUnparsed file := by
        rw [answer_run hs hc hp]
        rintro ⟨_, h⟩
        rw [report_ending] at h
        cases h
      rw [and_iff_right hparsed, answer_run hs hc hp]
      simp only [Request.answer, hl, check]
      cases hv : p.violation? with
      | some v =>
        have hrejects : c.Rejects source (.validation v.error) := .validation hvalid hp hv
        rw [hrejects.launch_eq]
        exact ⟨fun h => (by cases h), fun h => absurd ((tellsInvalid_iff _ _).2 ⟨v.error, rfl⟩) h⟩
      | none =>
        have hadmits : c.Admits source p := ⟨hvalid, hp, hv⟩
        obtain ⟨moves, hmoves, hover⟩ := hadmits.exists_moved programs (.ofList vars) [] m
        exact iff_of_true rfl (not_tellsInvalid_of_moved hadmits output hmoves hover)

/-- A file that cannot be read is refused by both commands in the same words. -/
theorem answer_unread {reason : String} (hs : (read file).text = .error reason) (hc : loadConfig read config = .ok c)
    (q : Request) (hq : q = .check file ∨ q = .run file config vars output) :
    q.answer programs read m = (m, .fail ["failed to read " ++ file, reason]) := by
  have hl : loadPipeline read file = .error ["failed to read " ++ file, reason] := by rw [loadPipeline, hs]
  rcases hq with rfl | rfl <;> simp only [Request.answer, hc, hl]

end

/-- A run is turned away exactly by the first fault of its configuration, its source and its pipeline, and then
nothing has happened; any other run records a stage and ends with no such error. The commands agree on it: `check`
accepts a file that holds a source exactly if `run` does not tell that it was turned away, and `run` exits with 0
exactly if its run had no error. -/
theorem runs_end_as_checked (programs : Programs M) (m : M) :
    (∀ (c : Config) (vars : Bindings) (source : String), c.Ends programs vars m source) ∧
      ∀ read file config vars output c, loadConfig read config = .ok c →
        (∀ source, (read file).text = .ok source → Agrees programs read m file source config vars output c) ∧
          ∀ reason, (read file).text = .error reason → ∀ q : Request, q = .check file ∨ q = .run file config vars output →
            q.answer programs read m = (m, .fail ["failed to read " ++ file, reason]) :=
  ⟨fun c vars source => c.ends programs vars m source, fun _ _ _ _ _ _ hc =>
    ⟨fun _ hs => agrees hs hc, fun _ hs q hq => answer_unread hs hc q hq⟩⟩

/-- A source of one stage, where every program hangs: a bad configuration turns it away, and under the default one
it is accepted and run. -/
theorem runs_end_as_checked_hanging :
    let source := "pipeline\x7bagent none stages\x7bstage('a')\x7bsteps\x7bsh 'x'\x7d\x7d\x7d\x7d"
    let read : String → Contents := fun _ => .ok source.toUTF8.toList
    let programs : Programs Unit := ⟨fun _ m => (m, none), fun _ m => m⟩
    let idle : Config := { retry := { maxAttempts := 0 } }
    loadConfig read none = .ok {} ∧ (read "f").text = .ok source ∧
      (idle.launch programs .empty [] () source).outcome.error = some ConfigFault.noAttempts.error ∧
      (({} : Config).launch programs .empty [] () source).outcome.records ≠ [] ∧
      ¬ ((Request.run "f" none [] none).answer programs read ()).2.TellsInvalid := by
  intro source read programs idle
  have hsource : (read "f").text = .ok source := by decide +kernel
  have hparse : Source.parse source = .ok ⟨.none, [{ name := "a", steps := [.single "sh" "x"] }]⟩ := by
    decide +kernel
  have hadmits : ({} : Config).Admits source _ := ⟨by decide, hparse, by decide⟩
  obtain ⟨hends, hagrees⟩ := runs_end_as_checked programs ()
  obtain ⟨moves, hmoves, hover⟩ := (hends {} .empty source).played _ hadmits []
  have hchecked := ((hagrees read "f" none [] none {} rfl).1 source hsource).checked
  refine ⟨rfl, hsource, (((hends idle .empty source).rejected [] _).2 (.config (by decide))).1,
    ((hends {} .empty source).begun _ hadmits moves _ hmoves hover).2, (hchecked.1 ?_).2⟩
  have hl : loadPipeline read "f" = .ok ⟨.none, [{ name := "a", steps := [.single "sh" "x"] }]⟩ := by
    rw [loadPipeline_eq hsource, hparse, Except.mapError]
  simp only [Request.answer, hl]
  rfl

end CommandLine

end StageTree
