import StageTree.Proofs.Run.Blame
import StageTree.Proofs.Run.Bracket

/-! The event log of a run that is over. It starts and ends with the run; of every stage that was reached it
tells the start and then the end, as the ledger does; what else it tells of a stage, or of one below it, lies
between these two; and it tells that a group cancels its branches exactly when the group does. -/

namespace StageTree

variable {W U : Type}

namespace Event

def field? (e : Event) (name : String) : Option Json := e.data.bind (Json.field? name)

def isOfRun (e : Event) : Bool :=
  e.type == "pipeline.started" || e.type == "pipeline.completed" || e.type == "pipeline.failed"

def isTerminal (e : Event) : Bool :=
  e.type == "stage.completed" || e.type == "stage.failed" || e.type == "stage.cancelled"

def isOfStage (e : Event) : Bool := e.type == "stage.started" || e.isTerminal

def isCancelling (e : Event) : Bool := e.type == "parallel.cancelling"

theorem isTerminal_of_type {e : Event} {status : Status} (h : e.type = Entry.endType status) :
    e.isTerminal = true := by
  rw [isTerminal, h]
  cases status <;> rfl

end Event

def Happening.stageType? : Happening → Option String
  | .started => some "stage.started"
  | .ended record => some (Entry.endType record.status)
  | _ => none

namespace Entry

variable {e : Entry} {event : Event}

/-- The event of an entry, with the path of the stage that it is about. The path of the run is empty. -/
def shown? (e : Entry) : Option (List String × Event) := e.event?.map fun event => (e.path, event)

theorem shown?_eq_some {x : List String × Event} : e.shown? = some x ↔ e.path = x.1 ∧ e.event? = some x.2 := by
  rw [shown?, Option.map_eq_some_iff]
  constructor
  · rintro ⟨event, h, rfl⟩
    exact ⟨rfl, h⟩
  · rintro ⟨hpath, h⟩
    exact ⟨x.2, h, by rw [hpath]⟩

/-- The type of an event shows what it tells of. -/
theorem event?_kind (e : Entry) :
    e.event?.any Event.isOfRun = e.what.isOfRun ∧ e.event?.any Event.isCancelling = e.what.isCancelling ∧
      (e.event?.filter Event.isOfStage).map Event.type = e.what.stageType? := by
  obtain ⟨ms, path, what⟩ := e
  cases what with
  | ended record =>
    cases hs : record.status <;>
      simp [event?, Event.isOfRun, Event.isCancelling, Event.isOfStage, Event.isTerminal, endType, hs,
        Happening.isOfRun, Happening.isCancelling, Happening.stageType?]
  | noted note => cases note <;> exact ⟨rfl, rfl, rfl⟩
  | _ => exact ⟨rfl, rfl, rfl⟩

theorem isOfRun_event (h : e.event? = some event) : event.isOfRun = e.what.isOfRun := by
  rw [← e.event?_kind.1, h, Option.any_some]

theorem isCancelling_event (h : e.event? = some event) : event.isCancelling = e.what.isCancelling := by
  rw [← e.event?_kind.2.1, h, Option.any_some]

/-- What tells that a stage started or ended has an event of that type. -/
theorem exists_shown {l : List Entry} (he : e ∈ l) {type : String} (h : e.what.stageType? = some type) :
    ∃ x ∈ l.filterMap shown?, x.1 = e.path ∧ x.2.type = type := by
  rw [← e.event?_kind.2.2, Option.map_eq_some_iff] at h
  obtain ⟨event, hevent, rfl⟩ := h
  have hshown : e.shown? = some (e.path, event) := shown?_eq_some.2 ⟨rfl, (Option.filter_eq_some_iff.1 hevent).1⟩
  exact ⟨(e.path, event), List.mem_filterMap.2 ⟨e, he, hshown⟩, rfl, rfl⟩

/-- An event of another type tells of something else. -/
theorem stageType?_eq_none (h : e.event? = some event) (hn : event.isOfStage = false) :
    e.what.stageType? = none := by
  rw [← e.event?_kind.2.2, h, Option.filter_some, hn]
  rfl

/-- What happens to a stage is shown with its name, and its start and its end with its path. -/
theorem event_data (h : e.event? = some event) (hrun : e.what.isOfRun = false)
    (hrec : ∀ rec, e.what = .ended rec → rec.path = e.path) :
    event.stage? = some e.stage ∧ (event.isOfStage = true → event.field? "path" = some (.strings e.path)) := by
  obtain ⟨ms, path, what⟩ := e
  cases what with
  | runStarted | runFailed | runCompleted => cases hrun
  | started =>
    obtain rfl := Option.some.inj h
    exact ⟨rfl, fun _ => rfl⟩
  | ended record =>
    obtain rfl := Option.some.inj h
    obtain rfl : record.path = path := hrec record rfl
    exact ⟨rfl, fun _ => rfl⟩
  | cancelling =>
    obtain rfl := Option.some.inj h
    exact ⟨rfl, by simp [Event.isOfStage, Event.isTerminal]⟩
  | noted note =>
    cases note with
    | attemptStarted | attemptRefused => cases h
    | attemptFailed | retrying =>
      obtain rfl := Option.some.inj h
      exact ⟨rfl, by simp [Event.isOfStage, Event.isTerminal]⟩
  | _ => cases h

/-- An event tells that a group cancels its branches for the sake of one exactly if its entry does. -/
theorem cancelling_iff (h : e.event? = some event) {name : String} :
    event.isCancelling = true ∧ event.field? "failed_branch" = some (.string name) ↔
      e.what = .cancelling name := by
  have hkind := isCancelling_event h
  obtain ⟨ms, path, what⟩ := e
  constructor
  · rintro ⟨hc, hname⟩
    rw [hc, eq_comm, Happening.isCancelling_iff] at hkind
    obtain ⟨name', rfl⟩ := hkind
    obtain rfl := Option.some.inj h
    obtain rfl : name' = name := Json.string.inj (Option.some.inj hname)
    rfl
  · rintro rfl
    obtain rfl := Option.some.inj h
    exact ⟨rfl, rfl⟩

end Entry

/-- The story of a stage that has ended tells of its start and then of its end, as its record does. -/
theorem Activity.Told.stageTypes {vars : Bindings} {path : List String} {a : Activity U} {es : List Happening}
    (h : Told vars path a es) {rec : StageRecord} (hrec : a.record? path = some rec) :
    es.filterMap Happening.stageType? = ["stage.started", Entry.endType rec.status] := by
  rw [← Happening.filterMap_outline (by rintro ⟨⟩ <;> simp [Happening.isDetail, Happening.stageType?])]
  have ho := h.outlined
  generalize Happening.outline es = os at ho
  cases ho with
  | unstarted hp | gathering hp | working hp =>
    rw [record?_eq_none (by simp [hasEnded, hp])] at hrec
    cases hrec
  | alone hp | returned hp =>
    rw [record?_of_phase path hp] at hrec
    obtain rfl := Option.some.inj hrec
    rfl

/-- A place among what is picked out of a list is the place of what it is picked out of. -/
theorem exists_of_filterMap_eq {α β : Type} {pick : α → Option β} {l : List α} {before after : List β} {x : β}
    (h : l.filterMap pick = before ++ x :: after) :
    ∃ front a back, l = front ++ a :: back ∧ front.filterMap pick = before ∧ pick a = some x ∧
      back.filterMap pick = after := by
  obtain ⟨front, rest, rfl, rfl, hrest⟩ := List.filterMap_eq_append_iff.1 h
  obtain ⟨skipped, a, back, rfl, hskipped, ha, rfl⟩ := List.filterMap_eq_cons_iff.1 hrest
  refine ⟨front ++ skipped, a, back, by simp, ?_, ha, rfl⟩
  rw [List.filterMap_append, List.filterMap_eq_nil_iff.2 hskipped, List.append_nil]

namespace Run

variable {s : Setting W U} {r r' : Run W U} {p : Pipeline} {w : W} {path : List String}

/-- The events of a run, each with the path of the stage that it is about. The path of the run is empty. -/
def log (r : Run W U) : List (List String × Event) := r.trace.filterMap Entry.shown?

/-- The log shows the events of the run. -/
theorem map_snd_log (r : Run W U) : r.log.map Prod.snd = r.events.map Prod.snd := by
  rw [log, events, List.map_filterMap, List.map_filterMap]
  refine List.filterMap_congr fun e _ => ?_
  rw [Entry.shown?, Option.map_map, Option.map_map]
  rfl

def logAt (r : Run W U) (path : List String) : List Event := (r.log.filter (·.1 == path)).map Prod.snd

theorem logAt_eq (r : Run W U) (path : List String) :
    r.logAt path = (r.trace.filter (·.path == path)).filterMap Entry.event? := by
  rw [logAt, log, List.filter_filterMap, List.map_filterMap, List.filterMap_filter]
  refine List.filterMap_congr fun e _ => ?_
  cases he : e.event? with
  | none => simp [Entry.shown?, he]
  | some event => by_cases hpath : e.path = path <;> simp [Entry.shown?, he, hpath]

/-- The events that tell of the start and of the end of a stage are those of its story. -/
theorem logAt_types (r : Run W U) (path : List String) :
    ((r.logAt path).filter Event.isOfStage).map Event.type = (r.story path).filterMap Happening.stageType? := by
  rw [logAt_eq, story, Entry.storyAt, List.filter_filterMap, List.map_filterMap, List.filterMap_map]
  exact List.filterMap_congr fun e _ => e.event?_kind.2.2

/-- The events tell as often that a group cancels its branches as its story does. -/
theorem countP_logAt (r : Run W U) (path : List String) :
    (r.logAt path).countP Event.isCancelling = (r.story path).countP Happening.isCancelling := by
  rw [logAt_eq, story, Entry.storyAt, List.countP_filterMap, List.countP_map]
  refine List.countP_congr fun e _ => ?_
  rw [Function.comp_apply, ← e.event?_kind.2.1]
  cases e.event? <;> simp

/-! ### A log that is well formed -/

/-- That a place in a log lies between the start and the end of the stage at a path. -/
structure Encloses (path : List String) (before after : List (List String × Event)) : Prop where
  started : ∃ x ∈ before, x.1 = path ∧ x.2.type = "stage.started"
  ended : ∃ x ∈ after, x.1 = path ∧ x.2.isTerminal = true

/-- That the event log of a run that some moves led to its end is well formed. -/
structure Logged (r : Run W U) (s : Setting W U) (p : Pipeline) (start : Run W U) (moves : List Move) :
    Prop where
  /-- The run starts first and ends last, with what fits its error, and all else is about stages. -/
  framed : ∃ first middle last, r.log = ([], first) :: middle ++ [([], last)] ∧ first.type = "pipeline.started" ∧
    last.type = (if r.error?.isNone then "pipeline.completed" else "pipeline.failed") ∧
    ∀ x ∈ middle, x.1 ≠ [] ∧ x.2.isOfRun = false
  /-- An event about a stage names it, and with its path if it tells of its start or its end. -/
  data : ∀ x ∈ r.log, x.1 ≠ [] → x.2.stage? = some (x.1.getLastD "") ∧
    (x.2.isOfStage = true → x.2.field? "path" = some (.strings x.1))
  /-- A stage has one record and starts and ends once, as the record says, or it has no record and no events. -/
  stages : ∀ path, path ≠ [] →
    (r.records.filter (·.path == path) = [] ∧ r.logAt path = []) ∨
      ∃ rec, r.records.filter (·.path == path) = [rec] ∧
        ((r.logAt path).filter Event.isOfStage).map Event.type = ["stage.started", Entry.endType rec.status]
  /-- All events about stages below a stage, and all others about itself, lie between its start and its end. -/
  enclosed : ∀ before x after path, r.log = before ++ x :: after → path ≠ [] → path <+: x.1 →
    (path = x.1 → x.2.isOfStage = false) → Encloses path before after
  /-- A group tells that it cancels its branches exactly in a move that joins one that failed, if it fails fast
  and its scope is live. -/
  cancelling : ∀ before move after q q', moves = before ++ move :: after → start.moved s before = some q →
    q.step s move = some q' → ∃ more, q'.log = q.log ++ more ∧ ∀ path name,
      (∃ event, (path, event) ∈ more ∧ event.isCancelling = true ∧
        event.field? "failed_branch" = some (.string name)) ↔
        (∃ st, p.find? path = some st ∧ st.failsFast = true) ∧ FailureJoined q q' path name
  once : ∀ path, path ≠ [] → (r.logAt path).countP Event.isCancelling ≤ 1
  /-- The branch that is named has failed before, and the stage of the group fails after. -/
  blamed : ∀ before x after, r.log = before ++ x :: after → x.2.isCancelling = true →
    ∃ name, x.2.field? "failed_branch" = some (.string name) ∧
      (∃ y ∈ before, y.1 = x.1 ++ [name] ∧ y.2.type = "stage.failed") ∧
      ∃ y ∈ after, y.1 = x.1 ∧ y.2.type = "stage.failed"

section Over

variable (hp : p.Proper) {moves : List Move} (h : (begin p w).moved s moves = some r)

include hp h in
/-- What is about a stage of a run is not about the run. -/
theorem isOfRun_iff {e : Entry} (he : e ∈ r.trace) : e.what.isOfRun = true ↔ e.path = [] := by
  refine ⟨fun hrun => ?_, (framed_of_moved hp h).isOfRun he⟩
  by_contra hne
  have ht := tells_of_moved hp h
  have hmem : e.what ∈ r.story e.path := Entry.mem_storyAt.2 ⟨e, he, rfl, rfl⟩
  obtain ⟨n, hn⟩ := ht.exists_at? hne (List.ne_nil_of_mem hmem)
  rw [(ht.told hn).isOfRun_eq_false hmem] at hrun
  cases hrun

include hp h in
theorem log_framed (hover : r.verdict.isSome = true) :
    ∃ first middle last, r.log = ([], first) :: middle ++ [([], last)] ∧ first.type = "pipeline.started" ∧
      last.type = (if r.error?.isNone then "pipeline.completed" else "pipeline.failed") ∧
      ∀ x ∈ middle, x.1 ≠ [] ∧ x.2.isOfRun = false := by
  have hframed := framed_of_moved hp h
  have hmiddle {body : List Entry} (hbody : ∀ e ∈ body, e.path ≠ []) (hsub : ∀ e ∈ body, e ∈ r.trace) :
      ∀ x ∈ body.filterMap Entry.shown?, x.1 ≠ [] ∧ x.2.isOfRun = false := fun x hx => by
    obtain ⟨e, he, hshown⟩ := List.mem_filterMap.1 hx
    obtain ⟨hpath, hevent⟩ := Entry.shown?_eq_some.1 hshown
    rw [← hpath, Entry.isOfRun_event hevent, ← Bool.not_eq_true, isOfRun_iff hp h (hsub e he)]
    exact ⟨hbody e he, hbody e he⟩
  rw [log, error?]
  generalize r.verdict = verdict, r.trace = trace at hframed hmiddle hover
  cases hframed with
  | going => cases hover
  | completed stages ms hbody | failed stages ms stage error hbody =>
    rw [List.filterMap_append]
    exact ⟨_, _, _, rfl, rfl, rfl, hmiddle hbody fun e he => by simp [he]⟩

include hp h in
theorem log_data : ∀ x ∈ r.log, x.1 ≠ [] → x.2.stage? = some (x.1.getLastD "") ∧
    (x.2.isOfStage = true → x.2.field? "path" = some (.strings x.1)) := by
  intro x hx hne
  obtain ⟨e, he, hshown⟩ := List.mem_filterMap.1 hx
  obtain ⟨hpath, hevent⟩ := Entry.shown?_eq_some.1 hshown
  rw [← hpath] at hne ⊢
  refine Entry.event_data hevent ?_ fun rec hwhat => ?_
  · rwa [← Bool.not_eq_true, isOfRun_iff hp h he]
  · obtain ⟨n, _, hrec⟩ := (tells_of_moved hp h).exists_of_record he (by rw [Entry.record?, hwhat])
    exact (Activity.record?_eq_some hrec).1

include hp h in
/-- The records at a path are those of the story there. -/
theorem records_filter (path : List String) :
    r.records.filter (·.path == path) = (r.story path).filterMap Happening.record? := by
  rw [records, story, Entry.storyAt, List.filter_filterMap, List.filterMap_map, List.filterMap_filter]
  refine List.filterMap_congr fun e he => ?_
  cases hrec : e.record? with
  | none =>
    have hnone : e.what.record? = none := hrec
    simp [hnone]
  | some rec =>
    obtain ⟨n, _, hnrec⟩ := (tells_of_moved hp h).exists_of_record he hrec
    have hsome : e.what.record? = some rec := hrec
    by_cases hpath : e.path = path <;> simp [hsome, (Activity.record?_eq_some hnrec).1, hpath]

include hp h in
theorem log_stages (hover : r.verdict.isSome = true) (hne : path ≠ []) :
    (r.records.filter (·.path == path) = [] ∧ r.logAt path = []) ∨
      ∃ rec, r.records.filter (·.path == path) = [rec] ∧
        ((r.logAt path).filter Event.isOfStage).map Event.type = ["stage.started", Entry.endType rec.status] := by
  have ht := tells_of_moved hp h
  rw [records_filter hp h, logAt_types]
  by_cases hnil : r.story path = []
  · refine .inl ⟨by rw [hnil]; rfl, ?_⟩
    rw [story, Entry.storyAt, List.map_eq_nil_iff] at hnil
    rw [logAt_eq, hnil]
    rfl
  · obtain ⟨n, hn⟩ := ht.exists_at? hne hnil
    obtain ⟨ms, lines, error, hph⟩ :=
      Activity.hasEnded_iff.1 ((sound_of_moved hp h).hasEnded_of_over hp hover hn)
    refine .inr ⟨.finish path (.ofMillis n.since) (.ofMillis ms) error, ?_, ?_⟩
    · rw [(ht.told hn).records, Activity.record?_of_phase path hph]
      rfl
    · exact (ht.told hn).stageTypes (Activity.record?_of_phase path hph)

include hp h in
theorem log_enclosed (hover : r.verdict.isSome = true) {before after : List (List String × Event)}
    {x : List String × Event} (hlog : r.log = before ++ x :: after) (hne : path ≠ []) (hfront : path <+: x.1)
    (hnot : path = x.1 → x.2.isOfStage = false) : Encloses path before after := by
  obtain ⟨front, e, back, htrace, rfl, hshown, rfl⟩ := exists_of_filterMap_eq hlog
  obtain ⟨hpath, hevent⟩ := Entry.shown?_eq_some.1 hshown
  rw [← hpath] at hfront hnot
  have htype (heq : path = e.path) : e.what.stageType? = none := Entry.stageType?_eq_none hevent (hnot heq)
  constructor
  · obtain ⟨e', he', rfl, hwhat⟩ := started_of_moved hp h front e back htrace path hne hfront fun heq hwhat => by
      have htype := htype heq
      rw [hwhat] at htype
      cases htype
    exact Entry.exists_shown he' (by rw [hwhat]; rfl)
  · obtain ⟨n, hn, e', he', rfl, rec, hwhat, _⟩ := ended_of_over hp h hover htrace hne hfront fun heq => by
      have htype := htype heq
      cases hwhat : e.what <;> simp_all [Entry.record?, Happening.stageType?]
    obtain ⟨x, hx, hpath, htype⟩ := Entry.exists_shown he' (by rw [hwhat]; rfl)
    exact ⟨x, hx, hpath, Event.isTerminal_of_type htype⟩

include hp h in
theorem log_blamed (hover : r.verdict.isSome = true) {before after : List (List String × Event)}
    {x : List String × Event} (hlog : r.log = before ++ x :: after) (hc : x.2.isCancelling = true) :
    ∃ name, x.2.field? "failed_branch" = some (.string name) ∧
      (∃ y ∈ before, y.1 = x.1 ++ [name] ∧ y.2.type = "stage.failed") ∧
      ∃ y ∈ after, y.1 = x.1 ∧ y.2.type = "stage.failed" := by
  obtain ⟨front, e, back, htrace, rfl, hshown, rfl⟩ := exists_of_filterMap_eq hlog
  obtain ⟨hpath, hevent⟩ := Entry.shown?_eq_some.1 hshown
  have he : e ∈ r.trace := by simp [htrace]
  rw [Entry.isCancelling_event hevent, Happening.isCancelling_iff] at hc
  obtain ⟨name, hwhat⟩ := hc
  have hne : e.path ≠ [] := fun htop => by
    have hrun := (isOfRun_iff hp h he).2 htop
    rw [hwhat] at hrun
    cases hrun
  rw [← hpath]
  refine ⟨name, ((Entry.cancelling_iff hevent).2 hwhat).2, ?_, ?_⟩
  · obtain ⟨e', he', hpath, rec, hrec, hstatus⟩ := failed_of_cancelling hp h front e back htrace hne name hwhat
    rw [← hpath]
    exact Entry.exists_shown he' (by rw [hrec, Happening.stageType?, hstatus]; rfl)
  · obtain ⟨n, hn, e', he', hpath, rec, hrec, hstatus⟩ :=
      ended_of_over hp h hover htrace hne (List.prefix_refl _) fun _ => by rw [Entry.record?, hwhat]
    have hfail := status_of_cancelling hp h hn ((sound_of_moved hp h).hasEnded_of_over hp hover hn)
      (Entry.mem_storyAt.2 ⟨e, he, rfl, hwhat⟩)
    rw [← hpath]
    exact Entry.exists_shown he' (by rw [hrec, Happening.stageType?, hstatus, hfail]; rfl)

end Over

theorem log_cancelling (hp : p.Proper) {before : List Move} {move : Move} {q q' : Run W U}
    (hq : (begin p w).moved s before = some q) (hstep : q.step s move = some q') :
    ∃ more, q'.log = q.log ++ more ∧ ∀ path name,
      (∃ event, (path, event) ∈ more ∧ event.isCancelling = true ∧
        event.field? "failed_branch" = some (.string name)) ↔
        (∃ st, p.find? path = some st ∧ st.failsFast = true) ∧ FailureJoined q q' path name := by
  have hs := sound_of_moved hp hq
  have hmoved := (moved_of_step hstep).2
  have hq' := moved_concat hq hstep
  obtain ⟨new, htrace⟩ := hmoved.exists_new hs hp
  refine ⟨new.filterMap Entry.shown?, by rw [log, htrace, List.filterMap_append]; rfl, fun path name => ?_⟩
  have hmem : (∃ event, (path, event) ∈ new.filterMap Entry.shown? ∧ event.isCancelling = true ∧
      event.field? "failed_branch" = some (.string name)) ↔ .cancelling name ∈ Entry.storyAt path new := by
    rw [Entry.mem_storyAt]
    constructor
    · rintro ⟨event, hx, hc⟩
      obtain ⟨e, he, hshown⟩ := List.mem_filterMap.1 hx
      obtain ⟨hpath, hevent⟩ := Entry.shown?_eq_some.1 hshown
      exact ⟨e, he, hpath, (Entry.cancelling_iff hevent).1 hc⟩
    · rintro ⟨e, he, rfl, hwhat⟩
      obtain ⟨event, hevent⟩ : ∃ event, e.event? = some event := ⟨_, by rw [Entry.event?, hwhat]⟩
      exact ⟨event, List.mem_filterMap.2 ⟨e, he, Entry.shown?_eq_some.2 ⟨rfl, hevent⟩⟩,
        (Entry.cancelling_iff hevent).2 hwhat⟩
  rw [hmem]
  by_cases hne : path = []
  · subst hne
    constructor
    · intro hw
      obtain ⟨e, he, htop, hwhat⟩ := Entry.mem_storyAt.1 hw
      have hrun := (isOfRun_iff hp hq' (by simp [htrace, he])).2 htop
      rw [hwhat] at hrun
      cases hrun
    · rintro ⟨⟨st, hst, _⟩, _⟩
      cases hst
  · exact hmoved.cancelling_iff hs hp hne htrace

/-- The event log of a run that is over is well formed, in whatever order its stages went on, ended and were
joined, whatever its runner did, and whenever it was cancelled. -/
theorem logged_of_over (hv : p.violation? = none) {moves : List Move}
    (h : (begin p w).moved s moves = some r) (hover : r.verdict.isSome = true) :
    r.Logged s p (begin p w) moves := by
  have hp := Pipeline.proper_of_violation?_eq_none hv
  exact
    { framed := log_framed hp h hover
      data := log_data hp h
      stages := fun path hne => log_stages hp h hover hne
      enclosed := fun before x after path hlog hne hfront hnot => log_enclosed hp h hover hlog hne hfront hnot
      cancelling := fun before move after q q' _ hq hstep => log_cancelling hp hq hstep
      once := fun path hne => by
        rw [countP_logAt]
        exact countP_cancelling_le hp h hne
      blamed := fun before x after hlog hc => log_blamed hp h hover hlog hc }

theorem logged_of_over_fork :
    ∃ r, (begin (.fork true) {}).moved forkSetting forkCancelMoves = some r ∧ r.verdict.isSome = true ∧
      r.log.map (fun x => (x.1, x.2.type)) =
        [([], "pipeline.started"), (["fork"], "stage.started"), (["fork", "a"], "stage.started"),
          (["fork", "b"], "stage.started"), (["fork", "a"], "stage.failed"), (["fork"], "parallel.cancelling"),
          (["fork", "b"], "stage.cancelled"), (["fork"], "stage.failed"), ([], "pipeline.failed")] ∧
      r.Logged forkSetting (.fork true) (begin (.fork true) {}) forkCancelMoves := by
  have hover : (((begin (.fork true) {}).moved forkSetting forkCancelMoves).map fun r =>
      (r.verdict.isSome, r.log.map fun x => (x.1, x.2.type))) =
      some (true, [([], "pipeline.started"), (["fork"], "stage.started"), (["fork", "a"], "stage.started"),
        (["fork", "b"], "stage.started"), (["fork", "a"], "stage.failed"), (["fork"], "parallel.cancelling"),
        (["fork", "b"], "stage.cancelled"), (["fork"], "stage.failed"), ([], "pipeline.failed")]) := by decide
  obtain ⟨r, hr, hlog⟩ := Option.map_eq_some_iff.1 hover
  obtain ⟨hv, htypes⟩ := Prod.mk.inj hlog
  exact ⟨r, hr, hv, htypes, logged_of_over (by decide) hr hv⟩

end Run

end StageTree
