import StageTree.Proofs.Activity.Heard
import StageTree.Proofs.Activity.Width
import StageTree.Proofs.Run.Blame
import StageTree.Proofs.Run.Bracket
import StageTree.Proofs.Run.InFlight

/-! The journal that a runner keeps of a run if its units follow scripts. Its lists are what is heard of the units
in the moves of the run, in order. Every unit that starts completes, fails or is cancelled later, once; one that is
submitted under a cancelled scope is cancelled at once and does not start; and no more units are at work at a time
than the pipeline is wide. -/

namespace StageTree

variable {W U : Type}

/-- What is heard of a unit, whatever the scope. -/
def Remark.bare : Remark → Remark
  | submitted _ => submitted true
  | returned result => returned result

/-- What is heard of the unit of a stage when this happens, under a live scope. -/
def Happening.remark? : Happening → Option Remark
  | submitted _ => some (.submitted true)
  | returned result => some (.returned result)
  | _ => none

/-- What is heard of the unit of a stage is in the story of the stage. -/
theorem Diary.bare_about (live : List String → Bool) (path : List String) (trace : List Entry) :
    (Diary.about path (trace.filterMap (Entry.remark? live))).map Remark.bare =
      (Entry.storyAt path trace).filterMap Happening.remark? := by
  induction trace with
  | nil => rfl
  | cons e trace ih =>
    obtain ⟨ms, path', what⟩ := e
    by_cases hpath : path' = path
    · subst hpath
      cases what <;>
        simpa [about, Entry.storyAt, Entry.remark?, Happening.remark?, Remark.bare, List.filterMap_cons] using ih
    · cases what <;> simpa [about, Entry.storyAt, Entry.remark?, List.filterMap_cons, hpath] using ih

/-- The units that are submitted, and those that return, are those that the trace tells this of. -/
theorem Diary.paths_filterMap (live : List String → Bool) (trace : List Entry) :
    Diary.paths Remark.isSubmission (trace.filterMap (Entry.remark? live)) = trace.filterMap Entry.submitted? ∧
      Diary.paths Remark.isReturn (trace.filterMap (Entry.remark? live)) = trace.filterMap Entry.returned? := by
  induction trace with
  | nil => exact ⟨rfl, rfl⟩
  | cons e trace ih =>
    obtain ⟨ms, path, what⟩ := e
    cases what <;> simpa [Entry.remark?, Entry.submitted?, Entry.returned?, List.filterMap_cons] using ih

namespace Activity

/-- What is heard of the unit of a stage that has ended: nothing, or that it was submitted and returned. -/
theorem Told.remarks {vars : Bindings} {path : List String} {a : Activity U} {es : List Happening}
    (h : Told vars path a es) (he : a.hasEnded = true) : es.filterMap Happening.remark? = [] ∨
      ∃ result, es.filterMap Happening.remark? = [.submitted true, .returned result] := by
  have hdetail (what : Happening) (hd : what.isDetail = true) : what.remark? = none := by
    cases what <;> simp_all [Happening.isDetail, Happening.remark?]
  rw [← Happening.filterMap_outline hdetail]
  have ho := h.outlined
  generalize Happening.outline es = os at ho ⊢
  cases ho with
  | unstarted hp | gathering hp | working hp => simp [hasEnded, hp] at he
  | alone => exact .inl rfl
  | returned => exact .inr ⟨_, rfl⟩

/-- The name of a stage is the last of its path. -/
theorem getLastD_of_at? {a n : Activity U} {rest : List String} (hn : a.at? rest = some n) :
    (a.stage.name :: rest).getLastD "" = n.stage.name := by
  induction rest generalizing a with
  | nil =>
    obtain rfl : a = n := Option.some.inj hn
    rfl
  | cons name rest ih =>
    obtain ⟨b, hb, hrest⟩ := Option.bind_eq_some_iff.1 hn
    obtain rfl : b.stage.name = name := by simpa using List.find?_some hb
    exact ih hrest

end Activity

namespace Run

section Diary

variable {s : Setting W U} {r r' q q' : Run W U} {p : Pipeline}

/-- What is heard of units between two moments of a run. -/
def heard (r r' : Run W U) : Diary :=
  (r'.trace.drop r.trace.length).filterMap (Entry.remark? fun path => (r.scopeAt? path).isNone)

/-- What is heard of units in the moves of a run. -/
def diary (s : Setting W U) (r : Run W U) : List Move → Diary
  | [] => []
  | move :: moves => (r.step s move).elim [] fun q => r.heard q ++ q.diary s moves

theorem heard_eq {new : List Entry} (h : r'.trace = r.trace ++ new) :
    r.heard r' = new.filterMap (Entry.remark? fun path => (r.scopeAt? path).isNone) := by
  rw [heard, h, List.drop_left]

theorem diary_concat {before : List Move} {move : Move} (hq : r.moved s before = some q)
    (hstep : q.step s move = some q') : r.diary s (before ++ [move]) = r.diary s before ++ q.heard q' := by
  induction before generalizing r with
  | nil =>
    obtain rfl : r = q := Option.some.inj hq
    simp [diary, hstep]
  | cons first before ih =>
    obtain ⟨o, ho, hq⟩ := Option.bind_eq_some_iff.1 (show (r.step s first).bind (moved s · before) = some q from hq)
    rw [List.cons_append, diary, diary, ho, Option.elim_some, Option.elim_some, ih hq, List.append_assoc]

/-- What is heard of the unit of a stage is what the story of the stage tells of it. -/
theorem bare_about_diary (hp : p.Proper) {w : W} {moves : List Move} (h : (begin p w).moved s moves = some r)
    (path : List String) :
    (Diary.about path ((begin p w).diary s moves)).map Remark.bare = (r.story path).filterMap Happening.remark? := by
  refine moved_induction (P := fun moves r => (Diary.about path ((begin p w).diary s moves)).map Remark.bare =
    (r.story path).filterMap Happening.remark?) ?_ (fun before q move q' hq ih hstep => ?_) h
  · obtain ⟨st, future, _, e⟩ := exists_begin_eq (U := U) hp w
    rw [e, diary, story]
    by_cases hpath : path = []
    · subst hpath
      rfl
    · rw [Entry.storyAt_eq_nil fun e he => by rw [List.mem_singleton.1 he]; exact Ne.symm hpath]
      rfl
  · obtain ⟨new, hnew⟩ := (moved_of_step hstep).2.exists_new (sound_of_moved hp hq) hp
    rw [diary_concat hq hstep, Diary.about_append, List.map_append, ih, heard_eq hnew, Diary.bare_about, story, story,
      hnew, Entry.storyAt_append, List.filterMap_append]

end Diary

section Moves

variable {s : Setting W U} {r r' : Run W U} {p : Pipeline} {move : Move}

theorem getLastD_of_at? {path : List String} {n : Activity U} (hn : r.at? path = some n) :
    path.getLastD "" = n.stage.name := by
  cases path with
  | nil => cases hn
  | cons name rest =>
    obtain ⟨a, ha, hrest⟩ := Option.bind_eq_some_iff.1 hn
    obtain rfl : a.stage.name = name := by simpa using List.find?_some ha
    exact Activity.getLastD_of_at? hrest

theorem Throughout.of_at? {P : Activity U → Prop} (h : r.Throughout P) {path : List String} {n : Activity U}
    (hs : r.Sound p) (hp : p.Proper) (hn : r.at? path = some n) : P n := by
  obtain ⟨a, ha, hmem⟩ := Activity.mem_nodesBelow.1 ((hs.mem_nodes hp).2 hn)
  exact ((h a ha).of_mem_nodes hmem).here

/-- The units in flight are those of the stage at work. -/
theorem Sound.inFlight_eq_present (hs : r.Sound p) :
    r.inFlight = r.present.toList.flatMap fun a => a.inFlight [a.stage.name] := by
  have hpast : (r.past.flatMap fun a => a.inFlight [a.stage.name]) = [] :=
    List.flatMap_eq_nil_iff.2 fun a ha => Activity.inFlight_of_hasEnded (hs.past a ha).1 (hs.past a ha).2 _
  rw [inFlight_eq, List.flatMap_append, hpast, List.nil_append]

theorem Sound.width_present_le (hs : r.Sound p) {a : Activity U} (ha : r.present = some a) :
    a.stage.width ≤ p.width :=
  Pipeline.width_le (by rw [← hs.stages, ha]; simp)

theorem Sound.inFlight_le (hs : r.Sound p) : r.inFlight.length ≤ p.width := by
  rw [hs.inFlight_eq_present]
  cases ha : r.present with
  | none => exact Nat.zero_le _
  | some a =>
    rw [Option.toList_some, List.flatMap_singleton]
    exact (Activity.inFlight_le (hs.present a ha).1 _).trans (hs.width_present_le ha)

/-- The units in flight, and one that is submitted beside them, are no more than the pipeline is wide. -/
theorem Moved.length_submitted (hm : Moved s r move r') (hs : r.Sound p) :
    r.inFlight.length + r'.submitted.length ≤ p.width + r.submitted.length := by
  cases hm with
  | cancel reason =>
    have hsame : (r.cancel reason).submitted = r.submitted := by
      rw [Run.cancel]
      split <;> rfl
    rw [hsame]
    exact Nat.add_le_add_right hs.inFlight_le _
  | tick => exact Nat.add_le_add_right hs.inFlight_le _
  | @stage a q position x draw ha hq =>
    have htree := ((hs.stepped ha hq).length_submitted (hs.present a ha).1).trans (hs.width_present_le ha)
    have hmore : (r.take q).submitted.length = r.submitted.length + (q.trace.filterMap Entry.submitted?).length := by
      have htaking := taking_take r q
      generalize r.take q = r' at htaking ⊢
      cases htaking <;> simp [submitted, entry, Entry.submitted?, List.filterMap_cons]
    rw [hs.inFlight_eq_present, ha, Option.toList_some, List.flatMap_singleton, hmore]
    simp only [moment] at htree
    omega

end Moves

/-! ### Journals -/

variable {scriptOf : String → Script} {vars : Bindings} {r r' : Run Journal Asleep} {p : Pipeline} {move : Move}

/-- The journal takes down what is heard in a move. -/
theorem Moved.hears (hm : Moved (.scripted scriptOf vars) r move r') (hs : r.Sound p) (hp : p.Proper)
    (hframed : Framed r'.verdict r'.trace) (hcarries : r.Throughout (Activity.Carries Asleep.unit vars)) :
    r.world.Hears (r.heard r') r'.world := by
  rcases hm.exists_acted hs hp with ⟨htrace, hworld⟩ | ⟨n, m, x, q, tail, hn, hact, hscope, ⟨htrace, hworld⟩, htail⟩
  · have hnone : r.heard r' = [] := heard_eq (htrace.trans (List.append_nil _).symm)
    rw [hnone, hworld]
    exact .nil _
  · -- of a unit nothing is heard when the run ends
    have hrun (e : Entry) (he : e ∈ tail) : e.remark? (fun path => (r.scopeAt? path).isNone) = none := by
      have hwhat := hframed.isOfRun (by simp [htrace, he]) (htail e he).1
      obtain ⟨ms, path, what⟩ := e
      cases what <;> simp_all [Happening.isOfRun, Entry.remark?]
    rw [heard_eq htrace, List.filterMap_append, List.filterMap_eq_nil_iff.2 hrun, List.append_nil, hworld]
    exact hact.hears (hcarries.of_at? hs hp hn).named (getLastD_of_at? hn) (by rw [hscope])

/-- The journal of a run of which this was heard. -/
structure Kept (p : Pipeline) (d : Diary) (r : Run Journal Asleep) : Prop where
  started : r.world.started = d.names Remark.isStart
  completed : r.world.completed = d.names Remark.isCompletion
  failed : r.world.failed = d.names Remark.isFailure
  cancelled : r.world.cancelled = d.names Remark.isCancellation
  refused : ∀ path, (path, .submitted false) ∈ d →
    ∃ e, e.isCancellation = true ∧ (path, .returned (.error e)) ∈ d
  submitted : r.submitted = d.paths Remark.isSubmission
  returned : r.returned = d.paths Remark.isReturn
  running : r.world.running = r.inFlight.length
  maxRunning : r.world.maxRunning ≤ p.width

theorem kept_begin (hp : p.Proper) : Kept p [] (begin p {}) := by
  obtain ⟨st, future, _, e⟩ := exists_begin_eq (U := Asleep) hp ({} : Journal)
  rw [e]
  exact
    { started := rfl
      completed := rfl
      failed := rfl
      cancelled := rfl
      refused := by simp
      submitted := rfl
      returned := rfl
      running := by simp [inFlight_eq]
      maxRunning := Nat.zero_le _ }

theorem Kept.hears {d heard : Diary} (h : Kept p d r) (hr : r.world.Hears heard r'.world)
    (hsub : r'.submitted = r.submitted ++ heard.paths Remark.isSubmission)
    (hret : r'.returned = r.returned ++ heard.paths Remark.isReturn) (hb : r.Balanced) (hb' : r'.Balanced)
    (hwidth : r.inFlight.length + r'.submitted.length ≤ p.width + r.submitted.length) : Kept p (d ++ heard) r' where
  started := by rw [hr.started, h.started, Diary.names_append]
  completed := by rw [hr.completed, h.completed, Diary.names_append]
  failed := by rw [hr.failed, h.failed, Diary.names_append]
  cancelled := by rw [hr.cancelled, h.cancelled, Diary.names_append]
  refused path hmem := by
    rcases List.mem_append.1 hmem with hmem | hmem
    · obtain ⟨e, he, hd⟩ := h.refused path hmem
      exact ⟨e, he, List.mem_append_left _ hd⟩
    · obtain ⟨e, he, hd⟩ := hr.refused path hmem
      exact ⟨e, he, List.mem_append_right _ hd⟩
  submitted := by rw [hsub, h.submitted, Diary.paths_append]
  returned := by rw [hret, h.returned, Diary.paths_append]
  running := by
    have hrunning := hr.running
    have hbefore := hb.length_eq
    have hafter := hb'.length_eq
    rw [h.running] at hrunning
    simp only [List.length_append, hsub, hret] at hbefore hafter
    omega
  maxRunning := by
    have hmax := hr.maxRunning
    have hbound := h.maxRunning
    rw [h.running] at hmax
    simp only [List.length_append, hsub] at hwidth
    omega

theorem kept_of_moved (hp : p.Proper) {moves : List Move}
    (h : (begin p {}).moved (.scripted scriptOf vars) moves = some r) :
    Kept p ((begin p {}).diary (.scripted scriptOf vars) moves) r := by
  refine moved_induction (P := fun moves r => Kept p ((begin p {}).diary (.scripted scriptOf vars) moves) r)
    (kept_begin hp) (fun before q move q' hq hkept hstep => ?_) h
  have hq' := moved_concat hq hstep
  obtain ⟨_, hmoved⟩ := moved_of_step hstep
  have hs := sound_of_moved hp hq
  obtain ⟨new, hnew⟩ := hmoved.exists_new hs hp
  obtain ⟨hsub, hret⟩ := Diary.paths_filterMap (fun path => (q.scopeAt? path).isNone) new
  rw [diary_concat hq hstep]
  refine hkept.hears (hmoved.hears hs hp (framed_of_moved hp hq') ?_) ?_ ?_ (balanced_of_moved hp hq)
    (balanced_of_moved hp hq') (hmoved.length_submitted hs)
  · exact throughout_of_moved hp (Activity.persistent_carries (Activity.carries_scripted scriptOf vars)) hq
  · rw [heard_eq hnew, hsub, submitted, submitted, hnew, List.filterMap_append]
  · rw [heard_eq hnew, hret, returned, returned, hnew, List.filterMap_append]

/-! ### A run that is over -/

/-- In the story of a stage of a run that is over its unit returns, if it is submitted. -/
theorem remarks_of_over {s : Setting W U} {r : Run W U} {w : W} (hp : p.Proper) {moves : List Move}
    (h : (begin p w).moved s moves = some r) (hover : r.verdict.isSome = true) (path : List String) :
    (r.story path).filterMap Happening.remark? = [] ∨
      ∃ result, (r.story path).filterMap Happening.remark? = [.submitted true, .returned result] := by
  have ht := tells_of_moved hp h
  cases hn : r.at? path with
  | some n => exact (ht.told hn).remarks ((sound_of_moved hp h).hasEnded_of_over hp hover hn)
  | none =>
    refine .inl ?_
    cases path with
    | cons name rest => rw [ht.silent_of_at? hn, List.filterMap_nil]
    | nil =>
      refine List.filterMap_eq_nil_iff.2 fun what hwhat => ?_
      obtain ⟨e, he, hpath, rfl⟩ := Entry.mem_storyAt.1 hwhat
      have hrun := (framed_of_moved hp h).isOfRun he hpath
      cases hw : e.what <;> simp_all [Happening.isOfRun, Happening.remark?]

/-- What is heard of a unit in a run that is over: nothing, or its start and what it returned later, or that it was
submitted under a cancelled scope and returned that it was cancelled. -/
inductive Ended : List Remark → Prop
  | unheard : Ended []
  | started (result : UnitResult) : Ended [.submitted true, .returned result]
  | refused {e : RunError} (h : e.isCancellation = true) : Ended [.submitted false, .returned (.error e)]

theorem ended_of_bare {l : List Remark} {result : UnitResult}
    (h : l.map Remark.bare = [.submitted true, .returned result])
    (hrefused : .submitted false ∈ l → ∃ e, e.isCancellation = true ∧ .returned (.error e) ∈ l) : Ended l := by
  obtain ⟨first, rest, rfl, hfirst, hrest⟩ := List.map_eq_cons_iff.1 h
  obtain ⟨last, rest, rfl, hlast, hrest⟩ := List.map_eq_cons_iff.1 hrest
  obtain rfl := List.map_eq_nil_iff.1 hrest
  cases first with
  | returned => cases hfirst
  | submitted live =>
    cases last with
    | submitted => cases hlast
    | returned result =>
      cases live with
      | true => exact .started result
      | false =>
        obtain ⟨e, he, hmem⟩ := hrefused List.mem_cons_self
        obtain rfl : .error e = result := by simpa using hmem
        exact .refused he

/-- The journal of a run that is over, against what was heard of the units in it. -/
structure Settled (p : Pipeline) (d : Diary) (j : Journal) : Prop where
  running : j.running = 0
  maxRunning : j.maxRunning ≤ p.width
  started : j.started = d.names Remark.isStart
  completed : j.completed = d.names Remark.isCompletion
  failed : j.failed = d.names Remark.isFailure
  cancelled : j.cancelled = d.names Remark.isCancellation
  units : ∀ path, Ended (d.about path)
  /-- Every start has its end under the same name, and what else has ended are units that were refused. -/
  matched : (j.completed ++ j.failed ++ j.cancelled).Perm (j.started ++ d.names Remark.isRefusal)

/-- Whatever the scripts, no work is left when a run is over, in whatever order its stages went on, ended and were
joined, and whenever it was cancelled. -/
theorem settled_of_over (hv : p.violation? = none) {moves : List Move}
    (h : (begin p {}).moved (.scripted scriptOf vars) moves = some r) (hover : r.verdict.isSome = true) :
    Settled p ((begin p {}).diary (.scripted scriptOf vars) moves) r.world := by
  have hp := Pipeline.proper_of_violation?_eq_none hv
  have hs := sound_of_moved hp h
  have hkept := kept_of_moved hp h
  have hflight := hs.inFlight_eq_nil hover
  have hbare := bare_about_diary hp h
  generalize (begin p {}).diary (.scripted scriptOf vars) moves = d at hkept hbare ⊢
  refine
    { running := by rw [hkept.running, hflight]; rfl
      maxRunning := hkept.maxRunning
      started := hkept.started
      completed := hkept.completed
      failed := hkept.failed
      cancelled := hkept.cancelled
      units := fun path => ?_
      matched := ?_ }
  · have hmem {remark : Remark} : remark ∈ d.about path ↔ (path, remark) ∈ d := by
      simp [Diary.about]
    rcases remarks_of_over hp h hover path with hnone | ⟨result, hreturned⟩
    · rw [List.map_eq_nil_iff.1 ((hbare path).trans hnone)]
      exact .unheard
    · refine ended_of_bare ((hbare path).trans hreturned) fun hrefused => ?_
      obtain ⟨e, he, hd⟩ := hkept.refused path (hmem.1 hrefused)
      exact ⟨e, he, hmem.2 hd⟩
  · -- every unit that was submitted has returned, so that the two lists have the same paths
    have hpaths : (d.paths Remark.isReturn).Perm (d.paths Remark.isSubmission) := by
      have hbalanced := balanced_of_moved hp h
      rwa [Balanced, hflight, List.nil_append, hkept.submitted, hkept.returned] at hbalanced
    rw [hkept.started, hkept.completed, hkept.failed, hkept.cancelled]
    exact d.names_return_perm.trans ((hpaths.map _).trans d.names_submission_perm.symm)

theorem settled_of_over_fork :
    ∃ r, (begin (.fork true) {}).moved (.scripted forkScript .empty) forkCancelMoves = some r ∧
      r.verdict.isSome = true ∧ r.world = ⟨["a", "b"], [], ["a"], ["b"], 0, 2⟩ ∧
      Settled (.fork true) ((begin (.fork true) {}).diary (.scripted forkScript .empty) forkCancelMoves) r.world := by
  have hover : (((begin (.fork true) {}).moved (.scripted forkScript .empty) forkCancelMoves).map fun r =>
      (r.verdict.isSome, r.world)) = some (true, ⟨["a", "b"], [], ["a"], ["b"], 0, 2⟩) := by decide
  obtain ⟨r, hr, heq⟩ := Option.map_eq_some_iff.1 hover
  obtain ⟨hv, hworld⟩ := Prod.mk.inj heq
  exact ⟨r, hr, hv, hworld, settled_of_over (by decide) hr hv⟩

end Run

end StageTree
