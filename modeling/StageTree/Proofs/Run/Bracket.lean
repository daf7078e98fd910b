import StageTree.Proofs.Activity.Notice
import StageTree.Proofs.Run.Status

/-! Where the entries of a trace lie. The run starts first and ends last, everything else happens to its
stages; and what happens to a stage, or below it, lies between the start and the end of that stage. A group
tells at most once that it cancels its branches, and does so when it joins a failure under a live scope. -/

namespace StageTree

variable {W U : Type}

/-- The trace of a run that stands so: that the run starts comes first, then comes what happens to its
stages, and that it ends, if it has, comes last. -/
inductive Framed : Option Verdict → List Entry → Prop
  | going {body : List Entry} (stages : Nat) (h : ∀ e ∈ body, e.path ≠ []) :
      Framed none (⟨0, [], .runStarted stages⟩ :: body)
  | completed {body : List Entry} (stages ms : Nat) (h : ∀ e ∈ body, e.path ≠ []) :
      Framed (some none) (⟨0, [], .runStarted stages⟩ :: body ++ [⟨ms, [], .runCompleted⟩])
  | failed {body : List Entry} (stages ms : Nat) (stage : String) (error : RunError)
      (h : ∀ e ∈ body, e.path ≠ []) :
      Framed (some (some error)) (⟨0, [], .runStarted stages⟩ :: body ++ [⟨ms, [], .runFailed stage error⟩])

namespace Framed

variable {verdict : Option Verdict} {trace : List Entry}

theorem exists_body (h : Framed none trace) :
    ∃ stages body, trace = ⟨0, [], .runStarted stages⟩ :: body ∧ ∀ e ∈ body, e.path ≠ [] := by
  cases h with
  | going stages h => exact ⟨stages, _, rfl, h⟩

/-- What is about no stage is about the run. -/
theorem isOfRun (h : Framed verdict trace) {e : Entry} (he : e ∈ trace) (htop : e.path = []) :
    e.what.isOfRun = true := by
  cases h with
  | going stages h =>
    rcases List.mem_cons.1 he with rfl | he
    · rfl
    · exact absurd htop (h e he)
  | completed stages ms h | failed stages ms stage error h =>
    rcases List.mem_append.1 he with he | he
    · rcases List.mem_cons.1 he with rfl | he
      · rfl
      · exact absurd htop (h e he)
    · rw [List.mem_singleton.1 he]
      rfl

end Framed

namespace Run

variable {s : Setting W U} {r r' : Run W U} {p : Pipeline} {w : W} {path : List String} {move : Move}

theorem framed_of_moved (hp : p.Proper) {moves : List Move} (h : (begin p w).moved s moves = some r) :
    Framed r.verdict r.trace := by
  refine moved_induction (P := fun _ r => Framed r.verdict r.trace) ?_ (fun before q move q' hq ih hstep => ?_) h
  · obtain ⟨st, future, _, e⟩ := exists_begin_eq (U := U) hp w
    rw [e]
    exact .going p.stageCount (by simp)
  obtain ⟨hv, hmoved⟩ := moved_of_step hstep
  cases hmoved with
  | cancel reason =>
    rw [Run.cancel]
    split <;> exact ih
  | tick hlt => exact ih
  | @stage a o position x draw ha ho =>
    have hs := sound_of_moved hp hq
    obtain ⟨rest, hpath, _⟩ := (hs.stepped ha ho).exists_path (hs.present a ha).1
    rw [hv] at ih
    obtain ⟨stages, body, htrace, hbody⟩ := ih.exists_body
    have hmore : ∀ e ∈ body ++ o.trace, e.path ≠ [] := fun e he => by
      rcases List.mem_append.1 he with he | he
      · exact hbody e he
      · simp [hpath e he, moment]
    have htaking := taking_take q o
    generalize q.take o = q' at htaking
    cases htaking with
    | on | next =>
      show Framed q.verdict (q.trace ++ o.trace)
      rw [hv, htrace]
      exact .going stages hmore
    | completed =>
      show Framed (some none) (q.trace ++ o.trace ++ [q.entry .runCompleted])
      rw [htrace]
      exact .completed stages q.now hmore
    | @failed ms lines e =>
      show Framed (some (some e)) (q.trace ++ o.trace ++ [q.entry (.runFailed o.activity.stage.name e)])
      rw [htrace]
      exact .failed stages q.now o.activity.stage.name e hmore

/-! ### Between the start and the end of a stage -/

/-- What happens to a stage, or below it, happens after the stage started. -/
theorem started_of_moved (hp : p.Proper) {moves : List Move} (h : (begin p w).moved s moves = some r) :
    Heralded (fun before e => ∀ path, path ≠ [] → path <+: e.path → (path = e.path → e.what ≠ .started) →
      ∃ e' ∈ before, e'.path = path ∧ e'.what = .started) r.trace := by
  refine heralded_of_moved hp (fun before e htop _ path hne hfront _ => ?_) ?_ h
  · rw [htop] at hfront
    exact absurd (List.prefix_nil.1 hfront) hne
  intro before r n m x q hr hv hn hq front e rest htrace path hne hfront hnot
  have hs := sound_of_moved hp hr
  have ht := tells_of_moved hp hr
  rw [hq.path_eq (by simp [htrace] : e ∈ q.trace)] at hfront hnot
  have hold (hw : .started ∈ r.story path) : ∃ e' ∈ r.trace ++ front, e'.path = path ∧ e'.what = .started := by
    obtain ⟨e', he', hpath, hwhat⟩ := Entry.mem_storyAt.1 hw
    exact ⟨e', List.mem_append_left _ he', hpath, hwhat⟩
  by_cases hown : path = m.path
  · subst hown
    by_cases hstarted : .started ∈ r.story m.path
    · exact hold hstarted
    · -- the stage starts in this act, whose first entry tells of it
      have htold := hq.told (hs.sound_of_at? hp hn).here (ht.told hn)
      rw [(ht.told hn).eq_nil_of_started hstarted, List.nil_append] at htold
      obtain ⟨what, more, hcons, _⟩ := htold.eq_cons (by simp [htrace])
      rw [htrace] at hcons
      cases front with
      | nil => exact absurd (List.cons.inj hcons).1 (hnot rfl)
      | cons e' front => exact ⟨e', by simp, hq.path_eq (by simp [htrace]), (List.cons.inj hcons).1⟩
  · obtain ⟨n', hn'⟩ := exists_at?_above hne hfront hn
    obtain ⟨_ | ⟨name, tail⟩, htail⟩ := hfront
    · exact absurd (by simpa using htail) hown
    · rw [← htail, at?_append hne, hn', Option.bind_some] at hn
      exact hold ((ht.told hn').started_mem ((hs.sound_of_at? hp hn').here.phase_ne_waiting hn))

/-- The end of a stage that has ended is told. -/
theorem Tells.exists_ended {vars : Bindings} (ht : r.Tells vars) {n : Activity U} (hn : r.at? path = some n)
    (he : n.hasEnded = true) :
    ∃ e ∈ r.trace, e.path = path ∧ ∃ rec, e.what = .ended rec ∧ rec.status = .ofError n.error? := by
  obtain ⟨ms, lines, error, hph⟩ := Activity.hasEnded_iff.1 he
  have hmem : .finish path (.ofMillis n.since) (.ofMillis ms) error ∈
      (r.story path).filterMap Happening.record? := by
    rw [(ht.told hn).records, Activity.record?_of_phase path hph]
    exact List.mem_singleton_self _
  obtain ⟨what, hwhat, hrec⟩ := List.mem_filterMap.1 hmem
  obtain ⟨e, he, hpath, rfl⟩ := Entry.mem_storyAt.1 hwhat
  refine ⟨e, he, hpath, .finish path (.ofMillis n.since) (.ofMillis ms) error, ?_, ?_⟩
  · cases hwhat : e.what <;> simp_all [Happening.record?]
  · rw [Activity.error?_of_phase hph]
    rfl

/-- Once a run is over, what happened to a stage, or below it, has happened before the stage ended. -/
theorem ended_of_over (hp : p.Proper) {moves : List Move} (h : (begin p w).moved s moves = some r)
    (hover : r.verdict.isSome = true) {before after : List Entry} {e : Entry}
    (htrace : r.trace = before ++ e :: after) (hne : path ≠ []) (hfront : path <+: e.path) (hnot : path = e.path → e.record? = none) :
    ∃ n, r.at? path = some n ∧
      ∃ e' ∈ after, e'.path = path ∧ ∃ rec, e'.what = .ended rec ∧ rec.status = .ofError n.error? := by
  have hs := sound_of_moved hp h
  have ht := tells_of_moved hp h
  have he : e ∈ r.trace := by simp [htrace]
  obtain ⟨n', hn'⟩ := ht.exists_at? (fun hnil => hne (List.prefix_nil.1 (hnil ▸ hfront)))
    (List.ne_nil_of_mem (Entry.mem_storyAt.2 ⟨e, he, rfl, rfl⟩))
  obtain ⟨n, hn⟩ := exists_at?_above hne hfront hn'
  obtain ⟨e', he', rfl, rec, hwhat, hstatus⟩ := ht.exists_ended hn (hs.hasEnded_of_over hp hover hn)
  have hrec : e'.record? = some rec := by rw [Entry.record?, hwhat]
  have hfinal : List.Pairwise _ r.trace := final_of_moved hp h
  rw [htrace] at he' hfinal
  refine ⟨n, hn, e', ?_, rfl, rec, hwhat, hstatus⟩
  rcases List.mem_append.1 he' with hbefore | hrest
  · -- nothing happens below a stage that has ended
    exact absurd hfront ((List.pairwise_append.1 hfinal).2.2 e' hbefore e List.mem_cons_self (by simp [hrec]))
  · rcases List.mem_cons.1 hrest with rfl | hafter
    · rw [hnot rfl] at hrec
      cases hrec
    · exact hafter

/-! ### Groups that cancel their branches -/

/-- In a run no group that fails fast and is not cancelled has joined a failure. -/
theorem alert_of_moved (hp : p.Proper) {moves : List Move} (h : (begin p w).moved s moves = some r) :
    ∀ a ∈ r.past ++ r.present.toList, a.Alert := by
  refine moved_induction (P := fun _ r => ∀ a ∈ r.past ++ r.present.toList, a.Alert) ?_
    (fun before q move q' hq ih hstep => ?_) h
  · obtain ⟨st, future, _, e⟩ := exists_begin_eq (U := U) hp w
    rw [e]
    intro a ha
    obtain rfl : a = .ofStage st := by simpa using ha
    exact Activity.alert_ofStage st
  cases (moved_of_step hstep).2 with
  | tick hlt => exact ih
  | cancel reason =>
    rw [Run.cancel]
    split
    · exact ih
    · intro a ha
      rcases List.mem_append.1 ha with ha | ha
      · exact ih a (List.mem_append_left _ ha)
      · obtain ⟨b, hb, rfl⟩ := Option.map_eq_some_iff.1 (Option.mem_toList.1 ha)
        exact (ih b (by simp [hb])).cancel reason
  | @stage a o position x draw ha ho =>
    exact forall_take Activity.alert_ofStage (fun b hb => ih b (List.mem_append_left _ hb))
      (((sound_of_moved hp hq).stepped ha ho).alert (ih a (by simp [ha])))

theorem alert_of_at? (hp : p.Proper) {moves : List Move} (h : (begin p w).moved s moves = some r)
    {n : Activity U} (hn : r.at? path = some n) : n.Alert := by
  obtain ⟨a, ha, hmem⟩ := Activity.mem_nodesBelow.1 (((sound_of_moved hp h).mem_nodes hp).2 hn)
  exact (alert_of_moved hp h a ha).of_mem_nodes hmem

/-- A group tells at most once that it cancels its branches. -/
theorem countP_cancelling_le (hp : p.Proper) {moves : List Move} (h : (begin p w).moved s moves = some r)
    (hne : path ≠ []) : (r.story path).countP Happening.isCancelling ≤ 1 := by
  refine moved_induction (P := fun _ r => (r.story path).countP Happening.isCancelling ≤ 1) ?_
    (fun before q move q' hq ih hstep => ?_) h
  · rw [story_begin hp w hne]
    exact Nat.zero_le 1
  have hs := sound_of_moved hp hq
  rcases (moved_of_step hstep).2.story hs hp hne with e | ⟨n, m, x, o, hn, hact, _, e⟩
  · rwa [e]
  rw [e, List.countP_append]
  by_cases hnew : (o.trace.map Entry.what).countP Happening.isCancelling = 0
  · rwa [hnew]
  · -- a group that tells it now has a live scope, and so it has not told it before
    obtain ⟨what, hwhat, hc⟩ := List.countP_pos_iff.1 (Nat.pos_of_ne_zero hnew)
    obtain ⟨name, rfl⟩ := Happening.isCancelling_iff.1 hc
    obtain ⟨_, hlive, _⟩ := hact.cancelling_iff.1 hwhat
    have hzero : (q.story path).countP Happening.isCancelling = 0 := List.countP_eq_zero.2 fun what hw hc => by
      obtain ⟨name, rfl⟩ := Happening.isCancelling_iff.1 hc
      have htold := (tells_of_moved hp hq).told hn
      obtain ⟨_, f, hf, _⟩ := htold.exists_of_cancelling hw
      exact htold.scope_of_cancelling (alert_of_at? hp hq hn) hw hf (hlive f hf)
    rw [hzero, Nat.zero_add]
    exact hact.countP_cancelling_le

/-- A branch for which a group cancels the others was recorded as failed before. -/
theorem failed_of_cancelling (hp : p.Proper) {moves : List Move} (h : (begin p w).moved s moves = some r) :
    Heralded (fun before e => e.path ≠ [] → ∀ name, e.what = .cancelling name →
      ∃ e' ∈ before, e'.path = e.path ++ [name] ∧ ∃ rec, e'.what = .ended rec ∧ rec.status = .fail) r.trace := by
  refine heralded_of_moved hp (fun before e htop _ hne => absurd htop hne) ?_ h
  intro before r n m x q hr hv hn hq front e rest htrace _ name hwhat
  have he : e ∈ q.trace := by simp [htrace]
  obtain ⟨_, _, error, more, hfail, hjoined⟩ := hq.cancelling_iff.1 (List.mem_map.2 ⟨e, he, hwhat⟩)
  obtain ⟨b, hb, rfl, hended, herror⟩ := hq.exists_of_joined (by rw [hjoined]; exact List.mem_cons_self)
  obtain ⟨e', he', hpath, rec, hrec, hstatus⟩ :=
    (tells_of_moved hp hr).exists_ended ((sound_of_moved hp hr).at?_branch hp hn hb) hended
  rw [hq.path_eq he]
  refine ⟨e', List.mem_append_left _ he', hpath, rec, hrec, hstatus.trans ?_⟩
  rw [herror]
  exact Status.ofError_eq_fail.2 hfail

/-- A stage whose group has cancelled its branches ends as failed. -/
theorem status_of_cancelling (hp : p.Proper) {moves : List Move} (h : (begin p w).moved s moves = some r)
    {n : Activity U} (hn : r.at? path = some n) (he : n.hasEnded = true) {name : String}
    (hc : .cancelling name ∈ r.story path) : Status.ofError n.error? = .fail := by
  have hs := sound_of_moved hp h
  obtain ⟨e, hmem, rfl, hwhat⟩ := Entry.mem_storyAt.1 hc
  obtain ⟨before, after, htrace⟩ := List.append_of_mem hmem
  obtain ⟨e', he', hpath, rec, hrec, hstatus⟩ :=
    failed_of_cancelling hp h before e after htrace (ne_nil_of_at? hn) name hwhat
  obtain ⟨c, hc, hcrec⟩ := (tells_of_moved hp h).exists_of_record (e := e') (by simp [htrace, he'])
    (by rw [Entry.record?, hrec])
  rw [hpath, at?_append (ne_nil_of_at? hn), hn, Option.bind_some, Activity.at?] at hc
  obtain ⟨b, hb, hcb⟩ := Option.bind_eq_some_iff.1 hc
  obtain rfl := Option.some.inj hcb
  have hcoherent := (hs.sound_of_at? hp hn).here
  obtain ⟨hbranch, rfl⟩ := (Activity.named?_eq_some hcoherent.names).1 hb
  have hfail : r.statusAt? (e.path ++ [b.stage.name]) = some .fail := by
    rw [statusAt?_branch hp h hn he hbranch, ← (Activity.record?_eq_some hcrec).2.1, hstatus]
  rw [status_eq_verdictAt hp h hn he, verdictAt,
    if_pos (.inl ⟨b.stage, hcoherent.stages_of_mem hbranch ▸ List.mem_map_of_mem hbranch, hfail⟩)]

/-- That a move joins a branch that failed into the group of the stage at a path, while the scope of the group
is live. -/
structure FailureJoined (r r' : Run W U) (path : List String) (name : String) : Prop where
  joined : ∃ e more, r'.story path = r.story path ++ .joined name (some e) :: more ∧ e.isFailure = true
  live : r.scopeAt? (path ++ [name]) = none

/-- The scope around a branch is that of the group. -/
theorem scopeAt?_branch (hs : r.Sound p) (hp : p.Proper) {n b : Activity U} (hn : r.at? path = some n)
    (hb : b ∈ n.branches) : r.scopeAt? (path ++ [b.stage.name]) = n.fan.bind Fan.scope := by
  obtain ⟨top, rest, rfl⟩ := List.exists_cons_of_ne_nil (ne_nil_of_at? hn)
  have hnamed := (Activity.named?_eq_some (hs.sound_of_at? hp hn).here.names).2 ⟨hb, rfl⟩
  obtain ⟨a, ha, hn⟩ := Option.bind_eq_some_iff.1 hn
  rw [List.cons_append, scopeAt?, ha, Option.bind_some, Activity.scopeAt?_concat hn hnamed]

/-- A move tells that the branches of a group are cancelled exactly if it joins one that failed, the group fails
fast and its scope is live. -/
theorem Moved.cancelling_iff (h : Moved s r move r') (hs : r.Sound p) (hp : p.Proper) (hne : path ≠ [])
    {new : List Entry} (htrace : r'.trace = r.trace ++ new) {name : String} :
    .cancelling name ∈ Entry.storyAt path new ↔
      (∃ st, p.find? path = some st ∧ st.failsFast = true) ∧ FailureJoined r r' path name := by
  have hstory : r'.story path = r.story path ++ Entry.storyAt path new := by
    rw [Run.story, htrace, Entry.storyAt_append]
    rfl
  rcases h.story hs hp hne with e | ⟨n, m, x, q, hn, hq, _, e⟩
  · rw [hstory, List.append_right_eq_self] at e
    refine iff_of_false (by simp [e]) ?_
    rintro ⟨_, ⟨_, _, hjoined, _⟩, _⟩
    simp [hstory, e] at hjoined
  · have hnew : Entry.storyAt path new = q.trace.map Entry.what := List.append_cancel_left (hstory.symm.trans e)
    have hjoined :
        (∃ e more, r'.story path = r.story path ++ .joined name (some e) :: more ∧ e.isFailure = true) ↔
        ∃ e more, e.isFailure = true ∧ q.trace.map Entry.what = .joined name (some e) :: more := by
      simp only [e, List.append_cancel_left_eq, and_comm]
    have hscope {e : RunError} {more : List Happening}
        (htrace : q.trace.map Entry.what = .joined name (some e) :: more) :
        r.scopeAt? (path ++ [name]) = none ↔ ∀ f, n.fan = some f → f.scope = none := by
      obtain ⟨b, hb, rfl, _, _⟩ := hq.exists_of_joined (by rw [htrace]; exact List.mem_cons_self)
      rw [scopeAt?_branch hs hp hn hb, Option.bind_eq_none_iff]
    rw [hnew, hq.cancelling_iff]
    constructor
    · rintro ⟨hff, hlive, error, more, hfail, htrace⟩
      exact ⟨⟨n.stage, hs.find?_eq hp hn, hff⟩, hjoined.2 ⟨error, more, hfail, htrace⟩, (hscope htrace).2 hlive⟩
    · rintro ⟨⟨st, hst, hff⟩, hfail, hlive⟩
      obtain rfl : n.stage = st := Option.some.inj ((hs.find?_eq hp hn).symm.trans hst)
      obtain ⟨error, more, hfail, htrace⟩ := hjoined.1 hfail
      exact ⟨hff, (hscope htrace).1 hlive, error, more, hfail, htrace⟩

end Run

end StageTree
