import StageTree.Proofs.Activity.Place
import StageTree.Proofs.Run.Records

/-! How the stages of a run came to their statuses. A stage is recorded as its branches and its own unit
make it: a failure below it prevails over a cancellation, and the failure that was joined first becomes its
error. Its unit is submitted only after all of its branches are recorded, and went well. -/

namespace StageTree

variable {W U : Type}

namespace Activity

variable {vars : Bindings} {path : List String} {a : Activity U} {es : List Happening}

/-- A stage of which nothing tells that it started has no story. -/
theorem Told.eq_nil_of_started (h : Told vars path a es) (hs : Happening.started ∉ es) : es = [] := by
  cases h with
  | unstarted => rfl
  | refused | gathering | settled | working | returned => simp at hs

/-- A story tells of the start and of something after it, and of nothing more if that is the end. -/
theorem Told.eq_cons (h : Told vars path a es) (hne : es ≠ []) :
    ∃ what rest, es = .started :: what :: rest ∧ ∀ rec, what = .ended rec → rest = [] := by
  cases h with
  | unstarted => exact absurd rfl hne
  | refused => exact ⟨_, [], rfl, fun _ _ => rfl⟩
  | gathering => exact ⟨_, _, rfl, by simp⟩
  | settled => exact ⟨_, _, rfl, by simp⟩
  | working _ _ hl => cases hl <;> exact ⟨_, _, rfl, by simp⟩
  | returned _ _ hl => cases hl <;> exact ⟨_, _, rfl, by simp⟩

/-- How a stage with a story came to its end: it ended as it started, or with the error of its group, or with
what its unit returned, after all branches of the group ended without an error. -/
inductive Concluded (a : Activity U) (es : List Happening) : Prop
  | refused {e : RunError} {rec : StageRecord} (hf : a.fan = none) (he : a.error? = some e)
      (hc : e.isCancellation = true) (hs : es = [.started, .ended rec])
  | settled {f : Fan} (hf : a.fan = some f) (he : a.error? = f.join.error)
      (hr : es.filterMap Happening.result? = []) (hs : ∀ rec, es ≠ [.started, .ended rec])
      (hj : es.filterMap Happening.joined? = f.join.reports.map fun r => (r.name, r.error))
  | returned {result : UnitResult} (hb : a.stage.branches = a.branches.map stage)
      (hclear : ∀ b ∈ a.branches, b.error? = none) (he : a.error? = result.error?)
      (hr : es.filterMap Happening.result? = [result]) (hs : ∀ rec, es ≠ [.started, .ended rec])

theorem Led.clear (h : Led a es) (ha : a.Coherent) (hp : a.phase ≠ .fanned) :
    a.stage.branches = a.branches.map stage ∧ ∀ b ∈ a.branches, b.error? = none := by
  cases h with
  | alone hf hg =>
    rw [ha.single hf, Stage.branches, hg]
    exact ⟨rfl, by simp⟩
  | grouped hf he hg =>
    exact ⟨ha.stages hf, fun b hb => ((ha.faithful _ hf).clear_of_mem (ha.length_eq hf hp) he hb).2⟩

theorem Told.concluded (h : Told vars path a es) (ha : a.Coherent) (he : a.hasEnded = true) :
    Concluded a es := by
  have hpick : ∀ what : Happening, what.isDetail = true → what.result? = none := by
    rintro ⟨⟩ <;> simp [Happening.isDetail, Happening.result?]
  cases h with
  | unstarted hp | gathering hp | working _ hp => simp [hasEnded, hp] at he
  | refused hp hf hc => exact .refused hf (error?_of_phase hp) hc rfl
  | @settled f es ms hp hf hn hg =>
    refine .settled hf (error?_of_phase hp) ?_ (by simp) ?_
    · rw [List.filterMap_append, List.filterMap_cons_none rfl, List.filterMap_cons_none rfl,
        ← Happening.filterMap_outline hpick es, hg.outline]
      rfl
    · rw [List.filterMap_append, List.filterMap_cons_none rfl, List.filterMap_cons_none rfl, hg.joins,
        List.filterMap_cons_none rfl, List.filterMap_nil, List.append_nil]
  | @returned result es ms notes hp hl =>
    obtain ⟨hb, hclear⟩ := hl.clear ha (by simp [hp])
    refine .returned hb hclear (error?_of_phase hp) ?_ fun rec => ?_
    · rw [List.filterMap_append, List.filterMap_append, List.filterMap_cons_none rfl,
        List.filterMap_cons_none rfl, ← Happening.filterMap_outline hpick es, hl.outline,
        ← Happening.filterMap_outline hpick (notes.map .noted), Happening.outline_noted]
      rfl
    · cases hl <;> simp

end Activity

namespace Run

variable {s : Setting W U} {r r' : Run W U} {p : Pipeline} {w : W} {path : List String}

/-- Why the scope around the stage at a path is cancelled, if it is. -/
def scopeAt? (r : Run W U) : List String → Option String
  | [] => none
  | name :: path =>
    (Activity.named? name (r.past ++ r.present.toList)).bind (Activity.scopeAt? r.cancelled path)

def resultAt? (r : Run W U) (path : List String) : Option UnitResult :=
  ((r.story path).filterMap Happening.result?).head?

def errorAt? (r : Run W U) (path : List String) : Option RunError := (r.at? path).bind Activity.error?

/-- That a stage started, in one of the moves of a run, while the scope around it was cancelled. -/
def StartedCancelled (s : Setting W U) (start : Run W U) (moves : List Move) (path : List String) : Prop :=
  ∃ before move after q q', moves = before ++ move :: after ∧ start.moved s before = some q ∧
    q.step s move = some q' ∧ Happening.started ∉ q.story path ∧ Happening.started ∈ q'.story path ∧
    (q.scopeAt? path).isSome = true

/-- What a move adds to the trace: nothing, or what one stage tells of its act, under the scope around it,
and then perhaps the end of the run. -/
theorem Moved.exists_acted (h : Moved s r move r') (hs : r.Sound p) (hp : p.Proper) :
    (r'.trace = r.trace ∧ r'.world = r.world) ∨ ∃ n m x q tail, r.at? m.path = some n ∧
      Activity.Acted s m r.world n x q ∧ m.scope = r.scopeAt? m.path ∧
      (r'.trace = r.trace ++ (q.trace ++ tail) ∧ r'.world = q.world) ∧
      ∀ e ∈ tail, e.path = [] ∧ ∀ unit, e.what ≠ .submitted unit := by
  cases h with
  | cancel reason =>
    rw [Run.cancel]
    split <;> exact .inl ⟨rfl, rfl⟩
  | tick hlt => exact .inl ⟨rfl, rfl⟩
  | @stage a q position x draw ha hq =>
    obtain ⟨rest, n, m, q', hn, hact, hpath, hscope, htrace, hworld⟩ :=
      (hs.stepped ha hq).exists_acted (hs.present a ha).1
    have hnamed : Activity.named? a.stage.name (r.past ++ r.present.toList) = some a :=
      (Activity.named?_eq_some (hs.names hp)).2 ⟨by simp [ha], rfl⟩
    have hpath : m.path = a.stage.name :: rest := hpath
    have hat : r.at? m.path = some n := by rw [hpath, at?, hnamed, Option.bind_some, hn]
    have hscope : m.scope = r.scopeAt? m.path := by
      rw [hpath, scopeAt?, hnamed, Option.bind_some, hscope]
      rfl
    refine .inr ?_
    have htaking := taking_take r q
    generalize r.take q = r' at htaking ⊢
    cases htaking with
    | on | next => exact ⟨n, m, x, q', [], hat, hact, hscope, ⟨by simp [htrace], hworld.symm⟩, by simp⟩
    | completed =>
      exact ⟨n, m, x, q', [r.entry .runCompleted], hat, hact, hscope, ⟨by simp [htrace], hworld.symm⟩,
        by simp [entry]⟩
    | @failed ms lines e =>
      exact ⟨n, m, x, q', [r.entry (.runFailed q.activity.stage.name e)], hat, hact, hscope,
        ⟨by simp [htrace], hworld.symm⟩, by simp [entry]⟩

/-- What a move adds to the trace of a run comes last. -/
theorem Moved.exists_new (h : Moved s r move r') (hs : r.Sound p) (hp : p.Proper) :
    ∃ new, r'.trace = r.trace ++ new := by
  rcases h.exists_acted hs hp with ⟨e, _⟩ | ⟨_, _, _, q, tail, _, _, _, ⟨e, _⟩, _⟩
  · exact ⟨[], by simp [e]⟩
  · exact ⟨_, e⟩

/-- A move leaves the story of a stage as it is, or goes on with what the stage tells of its act. -/
theorem Moved.story (h : Moved s r move r') (hs : r.Sound p) (hp : p.Proper) (hne : path ≠ []) :
    r'.story path = r.story path ∨ ∃ n m x q, r.at? path = some n ∧ Activity.Acted s m r.world n x q ∧
      m.scope = r.scopeAt? path ∧ r'.story path = r.story path ++ q.trace.map Entry.what := by
  rcases h.exists_acted hs hp with ⟨e, _⟩ | ⟨n, m, x, q, tail, hn, hq, hscope, ⟨htrace, _⟩, htail⟩
  · exact .inl (by rw [Run.story, e, Run.story])
  · have hstory : r'.story path = Entry.storyAt path (r.trace ++ q.trace) := by
      rw [Run.story, htrace, ← List.append_assoc, Entry.storyAt_append_of_ne fun e he => ?_]
      rw [(htail e he).1]
      exact hne.symm
    rw [hstory]
    by_cases hpath : m.path = path
    · subst hpath
      exact .inr ⟨n, m, x, q, hn, hq, hscope, Entry.storyAt_append_of_eq fun e he => hq.path_eq he⟩
    · exact .inl (Entry.storyAt_append_of_ne fun e he => by rwa [hq.path_eq he])

/-- In a run every entry comes after what it needs, if the entries of an act do and those about the run
itself need nothing. -/
theorem heralded_of_moved {Q : List Entry → Entry → Prop} (hp : p.Proper)
    (top : ∀ before e, e.path = [] → (∀ unit, e.what ≠ .submitted unit) → Q before e)
    (act : ∀ (before : List Move) (r : Run W U) n m x q, (begin p w).moved s before = some r → r.verdict = none →
      r.at? m.path = some n → Activity.Acted s m r.world n x q →
      ∀ front e rest, q.trace = front ++ e :: rest → Q (r.trace ++ front) e)
    {moves : List Move} (h : (begin p w).moved s moves = some r) : Heralded Q r.trace := by
  refine moved_induction (P := fun _ r => Heralded Q r.trace) ?_ (fun before r move r' hr hq hstep => ?_) h
  · obtain ⟨st, future, _, e⟩ := exists_begin_eq (U := U) hp w
    rw [e]
    intro before e after htrace
    have he : e ∈ before ++ e :: after := by simp
    rw [← htrace, List.mem_singleton] at he
    exact he ▸ top _ _ rfl (by simp)
  · obtain ⟨hv, hmoved⟩ := moved_of_step hstep
    rcases hmoved.exists_acted (sound_of_moved hp hr) hp with
      ⟨hsame, _⟩ | ⟨n, m, x, q, tail, hn, hact, _, ⟨htrace, _⟩, htail⟩
    · exact hsame ▸ hq
    · rw [htrace, ← List.append_assoc]
      refine heralded_append (heralded_append hq (act before r n m x q hr hv hn hact)) fun front e rest he => ?_
      obtain ⟨hpath, hnot⟩ := htail e (by simp [he])
      exact top _ e hpath hnot

/-- At the beginning of a run nothing has happened to its stages. -/
theorem story_begin (hp : p.Proper) (w : W) (hne : path ≠ []) : (begin p w : Run W U).story path = [] := by
  obtain ⟨st, future, _, e⟩ := exists_begin_eq (U := U) hp w
  rw [e]
  exact Entry.storyAt_eq_nil fun e he => by rw [List.mem_singleton.1 he]; exact hne.symm

/-- What has happened to a stage stays so. -/
theorem story_of_moved (hs : r.Sound p) (hp : p.Proper) (hne : path ≠ []) {moves : List Move}
    (h : r.moved s moves = some r') : r.story path <+: r'.story path := by
  refine (moved_invariant (P := fun q => q.Sound p ∧ r.story path <+: q.story path)
    (fun q q' move _ ⟨hq, hfront⟩ hstep => ?_) ⟨hs, List.prefix_refl _⟩ h).2
  obtain ⟨_, hmoved⟩ := moved_of_step hstep
  refine ⟨hq.moved hp hmoved, hfront.trans ?_⟩
  rcases hmoved.story hq hp hne with e | ⟨_, _, _, _, _, _, _, e⟩
  · exact e ▸ List.prefix_refl _
  · exact e ▸ List.prefix_append _ _

theorem Tells.story_eq_cons {vars : Bindings} (h : r.Tells vars) (hne : path ≠ []) (hs : r.story path ≠ []) :
    ∃ what rest, r.story path = .started :: what :: rest ∧ ∀ rec, what = .ended rec → rest = [] := by
  obtain ⟨n, hn⟩ := h.exists_at? hne hs
  exact (h.told hn).eq_cons hs

/-- A stage started under a cancelled scope exactly if it ended as it started. -/
theorem startedCancelled_iff (hp : p.Proper) {moves : List Move} (h : (begin p w).moved s moves = some r)
    (hne : path ≠ []) :
    StartedCancelled s (begin p w) moves path ↔ ∃ rec, r.story path = [.started, .ended rec] := by
  constructor
  · rintro ⟨before, move, after, q, q', rfl, hq, hstep, hnot, hstarted, hscope⟩
    obtain ⟨_, hmoved⟩ := moved_of_step hstep
    have hqs := sound_of_moved hp hq
    rcases hmoved.story hqs hp hne with e | ⟨n, m, x, act, hn, hact, hm, hstory⟩
    · exact absurd (e ▸ hstarted) hnot
    · rw [((tells_of_moved hp hq).told hn).eq_nil_of_started hnot, List.nil_append] at hstory
      have hcoherent := (hqs.sound_of_at? hp hn).here
      obtain ⟨rec, hrec⟩ := (hact.scope_of_started hcoherent (hstory ▸ hstarted)).1 (hm ▸ hscope)
      -- nothing is added to the story in later moves
      have hlater : q'.moved s after = some r := by
        rw [moved_append, hq, Option.bind_some] at h
        simpa [moved, hstep] using h
      have hfront : [.started, .ended rec] <+: r.story path := by
        rw [← hrec, ← hstory]
        exact story_of_moved (hqs.moved hp hmoved) hp hne hlater
      obtain ⟨what, rest, e, hend⟩ := (tells_of_moved hp h).story_eq_cons hne fun e => by simp [e] at hfront
      rw [e] at hfront ⊢
      obtain rfl : .ended rec = what := by simpa using hfront
      exact ⟨rec, by rw [hend rec rfl]⟩
  · refine moved_induction (P := fun moves r => (∃ rec, r.story path = [.started, .ended rec]) →
      StartedCancelled s (begin p w) moves path) ?_ ?_ h
    · rintro ⟨rec, hrec⟩
      rw [story_begin hp w hne] at hrec
      cases hrec
    · rintro before q move q' hq ih hstep ⟨rec, hrec⟩
      obtain ⟨_, hmoved⟩ := moved_of_step hstep
      have hqs := sound_of_moved hp hq
      by_cases hnot : Happening.started ∈ q.story path
      · -- the stage had started before, and so it had ended
        have hmove : q.moved s [move] = some q' := by simpa [moved] using hstep
        have hfront : q.story path <+: [.started, .ended rec] := hrec ▸ story_of_moved hqs hp hne hmove
        obtain ⟨what, rest, e, hend⟩ := (tells_of_moved hp hq).story_eq_cons hne fun e => by simp [e] at hnot
        rw [e] at hfront
        obtain ⟨rfl, _⟩ : what = .ended rec ∧ rest = [] := by simpa using hfront
        rw [hend rec rfl] at e
        obtain ⟨before', move', after, q₁, q₂, rfl, hrest⟩ := ih ⟨rec, e⟩
        exact ⟨before', move', after ++ [move], q₁, q₂, by simp, hrest⟩
      · refine ⟨before, move, [], q, q', rfl, hq, hstep, hnot, by simp [hrec], ?_⟩
        rcases hmoved.story hqs hp hne with e | ⟨n, m, x, act, hn, hact, hm, hstory⟩
        · rw [← e, hrec] at hnot
          simp at hnot
        · rw [((tells_of_moved hp hq).told hn).eq_nil_of_started hnot, List.nil_append, hrec] at hstory
          have hcoherent := (hqs.sound_of_at? hp hn).here
          rw [← hm]
          exact (hact.scope_of_started hcoherent (by simp [← hstory])).2 ⟨rec, hstory.symm⟩

/-! ### The status of a stage -/

/-- That a stage fails: a branch of it did, or its own unit did, after all branches went well. -/
def Fails (r : Run W U) (path : List String) (st : Stage) : Prop :=
  (∃ b ∈ st.branches, r.statusAt? (path ++ [b.name]) = some .fail) ∨
    (∀ b ∈ st.branches, r.statusAt? (path ++ [b.name]) = some .ok) ∧
      ∃ e, r.resultAt? path = some (.error e) ∧ e.isFailure = true

/-- That a stage which does not fail is cancelled: a branch of it was, its own unit was, or its scope was
when it started. -/
def Cancels (r : Run W U) (s : Setting W U) (start : Run W U) (moves : List Move) (path : List String)
    (st : Stage) : Prop :=
  (∃ b ∈ st.branches, r.statusAt? (path ++ [b.name]) = some .cancel) ∨
    (∃ e, r.resultAt? path = some (.error e) ∧ e.isCancellation = true) ∨ StartedCancelled s start moves path

open Classical in
/-- The status of a stage as it follows from below. -/
noncomputable def verdictAt (r : Run W U) (s : Setting W U) (start : Run W U) (moves : List Move)
    (path : List String) (st : Stage) : Status :=
  if r.Fails path st then .fail else if r.Cancels s start moves path st then .cancel else .ok

section Ended

variable (hp : p.Proper) {moves : List Move} (h : (begin p w).moved s moves = some r) {n : Activity U}
  (hn : r.at? path = some n) (he : n.hasEnded = true)

include hp h hn he in
/-- All branches of a stage that has ended are recorded. -/
theorem statusAt?_branch {b : Activity U} (hb : b ∈ n.branches) :
    r.statusAt? (path ++ [b.stage.name]) = some (.ofError b.error?) := by
  have hs := sound_of_moved hp h
  have hended : b.hasEnded = true :=
    (hs.sound_of_at? hp hn).here.hasEnded_of_mem (fun e => by simp [Activity.hasEnded, e] at he) hb
  rw [(marked_of_moved hp h).statusAt?_eq hs hp, hs.at?_branch hp hn hb, Option.bind_some, Activity.status?,
    if_pos hended]

include hp h hn in
/-- No branch is recorded of a stage that did not enter its group. -/
theorem statusAt?_single (hf : n.fan = none) (name : String) : r.statusAt? (path ++ [name]) = none := by
  have hs := sound_of_moved hp h
  rw [(marked_of_moved hp h).statusAt?_eq hs hp, at?_append (ne_nil_of_at? hn), hn, Option.bind_some,
    Activity.at?, (hs.sound_of_at? hp hn).here.single hf]
  rfl

include hp h hn he in
/-- The branches of a group are recorded with the errors that the group joined. -/
theorem exists_branch_iff {f : Fan} (hf : n.fan = some f) (status : Status) :
    (∃ b ∈ n.stage.branches, r.statusAt? (path ++ [b.name]) = some status) ↔
      ∃ error ∈ f.join.reports.map Report.error, Status.ofError error = status := by
  have hs := sound_of_moved hp h
  have hsound := hs.sound_of_at? hp hn
  have hlength := hsound.here.length_eq hf fun e => by simp [Activity.hasEnded, e] at he
  have hbranch (b : Activity U) (hb : b ∈ n.branches) := statusAt?_branch hp h hn he hb
  simp only [(hsound.here.faithful f hf).mem_errors hlength, hsound.here.stages hf, List.mem_map]
  constructor
  · rintro ⟨_, ⟨b, hb, rfl⟩, hstatus⟩
    exact ⟨_, ⟨b, hb, rfl⟩, Option.some.inj ((hbranch b hb).symm.trans hstatus)⟩
  · rintro ⟨_, ⟨b, hb, rfl⟩, hstatus⟩
    exact ⟨_, ⟨b, hb, rfl⟩, hstatus ▸ hbranch b hb⟩

include hp h hn he in
/-- Without a result of a unit the status is that of the error of the group. -/
theorem verdictAt_of_group {f : Fan} (hf : n.fan = some f) (hresult : r.resultAt? path = none)
    (hlive : ¬ StartedCancelled s (begin p w) moves path) :
    r.verdictAt s (begin p w) moves path n.stage = .ofError f.join.error := by
  have hs := sound_of_moved hp h
  have hsound := hs.sound_of_at? hp hn
  have hjoin := (hsound.here.faithful f hf).error_eq
  have hfails : r.Fails path n.stage ↔
      ∃ error ∈ f.join.reports.map Report.error, Status.ofError error = .fail := by
    rw [Fails, exists_branch_iff hp h hn he hf, hresult]
    simp
  have hcancels : r.Cancels s (begin p w) moves path n.stage ↔
      ∃ error ∈ f.join.reports.map Report.error, Status.ofError error = .cancel := by
    rw [Cancels, exists_branch_iff hp h hn he hf, hresult]
    simp [hlive]
  rw [verdictAt]
  cases herror : f.join.error with
  | none =>
    have hclear := Join.foldl_firstError_eq_none.1 (hjoin.symm.trans herror)
    have hnot {status : Status} (hne : status ≠ .ok) :
        ¬ ∃ error ∈ f.join.reports.map Report.error, Status.ofError error = status := by
      rintro ⟨error, hmem, hstatus⟩
      rw [hclear error hmem] at hstatus
      exact hne hstatus.symm
    rw [if_neg (hfails.not.2 (hnot (by simp))), if_neg (hcancels.not.2 (hnot (by simp)))]
    rfl
  | some e =>
    have hstatus := Status.ofError_firstError (hjoin.symm.trans herror)
    by_cases hfail : r.Fails path n.stage
    · rw [if_pos hfail, hstatus, if_pos (hfails.1 hfail)]
    · rw [if_neg (hfails.not.1 hfail)] at hstatus
      have hmem := Join.mem_of_foldl_firstError (hjoin.symm.trans herror)
      rw [if_neg hfail, if_pos (hcancels.2 ⟨_, hmem, hstatus⟩), hstatus]

include hp h hn he in
/-- With a result of a unit, whose branches went well, it is that of the result. -/
theorem verdictAt_of_unit {result : UnitResult} (hb : n.stage.branches = n.branches.map Activity.stage)
    (hclear : ∀ b ∈ n.branches, b.error? = none) (hresult : r.resultAt? path = some result)
    (hlive : ¬ StartedCancelled s (begin p w) moves path) :
    r.verdictAt s (begin p w) moves path n.stage = .ofError result.error? := by
  have hall : ∀ b ∈ n.stage.branches, r.statusAt? (path ++ [b.name]) = some .ok := fun st hst => by
    rw [hb] at hst
    obtain ⟨b, hb, rfl⟩ := List.mem_map.1 hst
    rw [statusAt?_branch hp h hn he hb, hclear b hb]
    rfl
  have hnot {status : Status} (hne : status ≠ .ok) :
      ¬ ∃ b ∈ n.stage.branches, r.statusAt? (path ++ [b.name]) = some status := by
    rintro ⟨b, hb, hstatus⟩
    exact hne (Option.some.inj (hstatus.symm.trans (hall b hb)))
  have hfails : r.Fails path n.stage ↔ ∃ e, result = .error e ∧ e.isFailure = true := by
    rw [Fails, or_iff_right (hnot (by simp)), and_iff_right hall, hresult]
    simp
  have hcancels : r.Cancels s (begin p w) moves path n.stage ↔
      ∃ e, result = .error e ∧ e.isCancellation = true := by
    rw [Cancels, or_iff_right (hnot (by simp)), or_iff_left hlive, hresult]
    simp
  rw [verdictAt, hfails, hcancels]
  cases result with
  | ok lines => simp [UnitResult.error?, Status.ofError]
  | error e => cases hc : e.isCancellation <;> simp [UnitResult.error?, Status.ofError, RunError.isFailure, hc]

include hp h hn he in
/-- A stage ends with the status that follows from below. -/
theorem status_eq_verdictAt : Status.ofError n.error? = r.verdictAt s (begin p w) moves path n.stage := by
  have hs := sound_of_moved hp h
  have hsound := hs.sound_of_at? hp hn
  have hstarted := startedCancelled_iff hp h (ne_nil_of_at? hn)
  cases ((tells_of_moved hp h).told hn).concluded hsound.here he with
  | refused hf herror hc hes =>
    have hresult : r.resultAt? path = none := by rw [resultAt?, hes]; rfl
    have hfails : ¬ r.Fails path n.stage := by simp [Fails, statusAt?_single hp h hn hf, hresult]
    have hcancels : r.Cancels s (begin p w) moves path n.stage := .inr (.inr (hstarted.2 ⟨_, hes⟩))
    rw [verdictAt, if_neg hfails, if_pos hcancels, herror]
    exact Status.ofError_eq_cancel.2 (by simpa using hc)
  | settled hf herror hr hes =>
    rw [herror, verdictAt_of_group hp h hn he hf (by rw [resultAt?, hr]; rfl)]
    exact fun hc => (hstarted.1 hc).elim hes
  | returned hb hclear herror hr hes =>
    rw [herror, verdictAt_of_unit hp h hn he hb hclear (by rw [resultAt?, hr]; rfl)]
    exact fun hc => (hstarted.1 hc).elim hes

include hp h hn he in
/-- The error of a stage of which a branch failed is that of the branch whose failure was joined first. -/
theorem error?_of_failed (hfail : ∃ b ∈ n.stage.branches, r.statusAt? (path ++ [b.name]) = some .fail) :
    ∃ name e, ((r.story path).filterMap Happening.joined?).find? (·.2.any RunError.isFailure) =
      some (name, some e) ∧ r.errorAt? (path ++ [name]) = some e ∧ n.error? = some e := by
  have hs := sound_of_moved hp h
  have hsound := hs.sound_of_at? hp hn
  cases ((tells_of_moved hp h).told hn).concluded hsound.here he with
  | refused hf =>
    obtain ⟨b, _, hb⟩ := hfail
    rw [statusAt?_single hp h hn hf] at hb
    cases hb
  | returned hb hclear =>
    obtain ⟨st, hst, hstatus⟩ := hfail
    rw [hb] at hst
    obtain ⟨b, hb, rfl⟩ := List.mem_map.1 hst
    rw [statusAt?_branch hp h hn he hb, hclear b hb] at hstatus
    cases hstatus
  | @settled f hf herror _ _ hjoins =>
    obtain ⟨_, hmem, hstatus⟩ := (exists_branch_iff hp h hn he hf .fail).1 hfail
    obtain ⟨r₀, hr₀, rfl⟩ := List.mem_map.1 hmem
    obtain ⟨first, hfirst⟩ : ∃ first, f.join.reports.find? (·.error.any RunError.isFailure) = some first :=
      Option.isSome_iff_exists.1 (List.find?_isSome.2 ⟨r₀, hr₀, Status.ofError_eq_fail.1 hstatus⟩)
    have hany := List.find?_some hfirst
    obtain ⟨e, he', _⟩ := (Option.any_eq_true _ _).1 hany
    obtain ⟨b, hb, _, hreport⟩ := (hsound.here.faithful f hf).report first (List.mem_of_find?_eq_some hfirst)
    have hname : first.name = b.stage.name := congrArg Report.name hreport
    have hberror : first.error = b.error? := congrArg Report.error hreport
    refine ⟨first.name, e, ?_, ?_, ?_⟩
    · rw [hjoins, List.find?_map]
      have hcomp : ((fun x : String × Option RunError => x.2.any RunError.isFailure) ∘
          fun r : Report Results => (r.name, r.error)) = fun r => r.error.any RunError.isFailure := rfl
      rw [hcomp, hfirst, Option.map_some, he']
    · rw [errorAt?, hname, hs.at?_branch hp hn (List.mem_of_getElem? hb), Option.bind_some, ← hberror, he']
    · rw [herror, (hsound.here.faithful f hf).error_eq, Join.foldl_firstError_of_find? hfirst, he']

end Ended

/-! ### Submissions -/

/-- A run in which every unit was submitted after all branches of its stage were recorded, and went well. -/
def Guarded (p : Pipeline) (r : Run W U) : Prop :=
  ∀ before e after unit, r.trace = before ++ e :: after → e.what = .submitted unit →
    ∃ st, p.find? e.path = some st ∧ ∀ b ∈ st.branches,
      ∃ rec ∈ before.filterMap Entry.record?, rec.path = e.path ++ [b.name] ∧ rec.status = .ok

theorem guarded_of_moved (hp : p.Proper) {moves : List Move} (h : (begin p w).moved s moves = some r) :
    r.Guarded p := by
  suffices hq : Heralded (fun before e => ∀ unit, e.what = .submitted unit → ∃ st, p.find? e.path = some st ∧
      ∀ b ∈ st.branches, ∃ rec ∈ before.filterMap Entry.record?, rec.path = e.path ++ [b.name] ∧
        rec.status = .ok) r.trace from fun before e after unit htrace => hq before e after htrace unit
  refine heralded_of_moved hp (fun _ e _ hnot unit hwhat => absurd hwhat (hnot unit)) ?_ h
  intro before r n m x q hr _ hn hq front e rest htrace unit hwhat
  have hs := sound_of_moved hp hr
  have he : e ∈ q.trace := by simp [htrace]
  obtain ⟨hstages, hclear⟩ := hq.clear_of_submitted (hs.sound_of_at? hp hn).here (List.mem_map.2 ⟨e, he, hwhat⟩)
  rw [hq.path_eq he]
  refine ⟨n.stage, hs.find?_eq hp hn, fun st hst => ?_⟩
  rw [hstages] at hst
  obtain ⟨b, hb, rfl⟩ := List.mem_map.1 hst
  obtain ⟨ms, lines, error, hph⟩ := Activity.hasEnded_iff.1 (hclear b hb).1
  have hnone : error = none := (Activity.error?_of_phase hph).symm.trans (hclear b hb).2
  have hrec := (marked_of_moved hp hr).mem_of_record? hs hp (hs.at?_branch hp hn hb) (Activity.record?_of_phase _ hph)
  rw [hnone] at hrec
  exact ⟨_, ((List.sublist_append_left _ _).filterMap Entry.record?).subset hrec, rfl, rfl⟩

/-! ### All together -/

/-- How the statuses and errors of a run of a pipeline follow from each other. -/
structure Explained (r : Run W U) (s : Setting W U) (p : Pipeline) (start : Run W U) (moves : List Move) :
    Prop where
  status : ∀ rec ∈ r.records, ∀ st, p.find? rec.path = some st →
    rec.status = r.verdictAt s start moves rec.path st
  error : ∀ rec ∈ r.records, rec.status = .ofError (r.errorAt? rec.path) ∧
    rec.error = (r.errorAt? rec.path).map RunError.message
  submitted : r.Guarded p
  /-- The error of a stage of which a branch failed is that of the failure that was joined first. -/
  first : ∀ rec ∈ r.records, ∀ st, p.find? rec.path = some st →
    (∃ b ∈ st.branches, r.statusAt? (rec.path ++ [b.name]) = some .fail) →
    ∃ name e, ((r.story rec.path).filterMap Happening.joined?).find? (·.2.any RunError.isFailure) =
      some (name, some e) ∧ r.errorAt? (rec.path ++ [name]) = some e ∧ r.errorAt? rec.path = some e
  /-- The error of a run that is over is that of the last stage that was recorded at the top. -/
  last : r.verdict.isSome = true →
    ∃ rec, (r.records.filter (·.path.length = 1)).getLast? = some rec ∧ r.error? = r.errorAt? rec.path

theorem last_of_over (hp : p.Proper) {moves : List Move} (h : (begin p w).moved s moves = some r)
    (hover : r.verdict.isSome = true) :
    ∃ rec, (r.records.filter (·.path.length = 1)).getLast? = some rec ∧ r.error? = r.errorAt? rec.path := by
  have hs := sound_of_moved hp h
  obtain ⟨front, last, hpast, herror⟩ := hs.exists_last hp hover
  have hmem : last ∈ r.past := by simp [hpast]
  obtain ⟨ms, lines, error, hph⟩ := Activity.hasEnded_iff.1 (hs.past last hmem).2
  refine ⟨.finish [last.stage.name] (.ofMillis last.since) (.ofMillis ms) error, ?_, ?_⟩
  · rw [(paced_of_moved hp h).records, hpast, List.flatMap_append, List.flatMap_singleton,
      Activity.record?_of_phase _ hph, Option.toList_some, List.getLast?_concat]
  · have hat : r.at? [last.stage.name] = some last := by
      rw [at?, (Activity.named?_eq_some (hs.names hp)).2 ⟨List.mem_append_left _ hmem, rfl⟩]
      rfl
    rw [herror, errorAt?]
    exact (congrArg (Option.bind · Activity.error?) hat).symm

/-- The status of every stage of a run follows from those of its branches and from its own unit, in whatever
order its stages went on, ended and were joined, and whenever it was cancelled. -/
theorem explained_of_moved (hv : p.violation? = none) {moves : List Move}
    (h : (begin p w).moved s moves = some r) : r.Explained s p (begin p w) moves := by
  have hp := Pipeline.proper_of_violation?_eq_none hv
  have hs := sound_of_moved hp h
  -- a record is that of a stage that has ended
  have hnode (rec : StageRecord) (hrec : rec ∈ r.records) : ∃ n, r.at? rec.path = some n ∧
      n.hasEnded = true ∧ rec.status = .ofError n.error? ∧ rec.error = n.error?.map RunError.message := by
    obtain ⟨n, hn, hnrec⟩ := ((marked_of_moved hp h).mem_records hs hp).1 hrec
    obtain ⟨ms, lines, error, hph⟩ := Activity.hasEnded_iff.1 (Activity.record?_eq_some hnrec).2.2
    refine ⟨n, hn, Activity.hasEnded_of_phase hph, (Activity.record?_eq_some hnrec).2.1, ?_⟩
    rw [Activity.record?_of_phase _ hph] at hnrec
    rw [Activity.error?_of_phase hph, ← Option.some.inj hnrec]
    rfl
  refine
    { status := fun rec hrec st hst => ?_
      error := fun rec hrec => ?_
      submitted := guarded_of_moved hp h
      first := fun rec hrec st hst hfail => ?_
      last := last_of_over hp h }
  all_goals obtain ⟨n, hn, he, hstatus, herror⟩ := hnode rec hrec
  · obtain rfl : n.stage = st := Option.some.inj ((hs.find?_eq hp hn).symm.trans hst)
    exact hstatus.trans (status_eq_verdictAt hp h hn he)
  · rw [errorAt?, hn]
    exact ⟨hstatus, herror⟩
  · obtain rfl : n.stage = st := Option.some.inj ((hs.find?_eq hp hn).symm.trans hst)
    obtain ⟨name, e, hfirst, hbranch, hstage⟩ := error?_of_failed hp h hn he hfail
    exact ⟨name, e, hfirst, hbranch, by rw [errorAt?, hn]; exact hstage⟩

theorem explained_of_moved_fork :
    ∃ r, (begin (.fork false) {}).moved forkSetting forkMoves = some r ∧
      r.Explained forkSetting (.fork false) (begin (.fork false) {}) forkMoves := by
  have hover : (((begin (.fork false) {}).moved forkSetting forkMoves).map fun r => r.verdict.isSome) =
      some true := by decide
  obtain ⟨r, hr, _⟩ := Option.map_eq_some_iff.1 hover
  exact ⟨r, hr, explained_of_moved (by decide) hr⟩

end Run

end StageTree
