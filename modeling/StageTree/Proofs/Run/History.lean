import StageTree.Proofs.Activity.Yield
import StageTree.Proofs.Run.Ledger

/-! The results of a run, computed afterwards. A history says of each path how the stage there was
recorded, if it was, and what its unit returned. The results that follow from it by recursion on the
stage tree are those of the run, whatever the order of its moves was; none of the inserts that built them
overwrote an entry, and outputs are lost only under a branch that was cancelled. -/

namespace StageTree

/-- What is known of a run afterwards: how the stage at a path was recorded, and what outputs its unit
returned. -/
structure History where
  status : List String → Option Status
  outputs : List String → Option (List String)

namespace History

def isRecorded (h : History) (path : List String) : Bool := (h.status path).isSome

mutual

/-- What a stage contributes to the results around it: one entry, or none. -/
def entries (h : History) (above : List String) : Stage → List (String × StageValue)
  | ⟨name, _, _, _, parallel⟩ =>
    let path := above ++ [name]
    (StageValue.ofParts name (group h path parallel) (h.outputs path)).toList.map fun v => (name, v)

/-- What a group contributes if it was entered: then its branches have records. -/
def group (h : History) (path : List String) : Option (List Stage) → Option (List (String × StageValue))
  | none => none
  | some stages =>
    if stages.any fun b => h.isRecorded (path ++ [b.name]) then some (branches h path stages) else none

/-- What branches contribute, in their order: those that were not cancelled. -/
def branches (h : History) (path : List String) : List Stage → List (String × StageValue)
  | [] => []
  | b :: bs => (if h.status (path ++ [b.name]) = some .cancel then [] else entries h path b) ++ branches h path bs

end

/-- The results of stages that run in turn: what those contribute that were recorded. -/
def results (h : History) (stages : List Stage) : List (String × StageValue) :=
  stages.flatMap fun s => if h.isRecorded [s.name] then h.entries [] s else []

theorem entries_eq (h : History) (above : List String) (s : Stage) :
    h.entries above s = (StageValue.ofParts s.name (h.group (above ++ [s.name]) s.parallel)
      (h.outputs (above ++ [s.name]))).toList.map fun v => (s.name, v) := by
  cases s
  rw [entries]

variable {U : Type}

/-- A history says of the stages of a tree what the tree says. -/
def Agrees (h : History) (path : List String) (a : Activity U) : Prop :=
  ∀ rest, h.status (path ++ rest) = (a.at? rest).bind Activity.status? ∧
    h.outputs (path ++ rest) = (a.at? rest).bind Activity.lines

namespace Agrees

variable {h : History} {path : List String} {a : Activity U}

theorem status_here (hag : h.Agrees path a) : h.status path = a.status? := by
  simpa [Activity.at?] using (hag []).1

theorem outputs_here (hag : h.Agrees path a) : h.outputs path = a.lines := by
  simpa [Activity.at?] using (hag []).2

theorem branch (hag : h.Agrees path a) (ha : a.Coherent) {b : Activity U} (hb : b ∈ a.branches) :
    h.Agrees (path ++ [b.stage.name]) b := by
  intro rest
  have e : a.at? (b.stage.name :: rest) = b.at? rest := by
    rw [Activity.at?, (Activity.named?_eq_some ha.names).2 ⟨hb, rfl⟩, Option.bind_some]
  rw [List.append_assoc, ← e]
  exact hag (b.stage.name :: rest)

/-- There is no record below a stage that did not enter its group. -/
theorem status_of_single (hag : h.Agrees path a) (ha : a.branches = []) (name : String) :
    h.status (path ++ [name]) = none := by
  rw [(hag [name]).1, Activity.at?, ha]
  rfl

end Agrees

theorem status?_eq_cancel {a : Activity U} (he : a.hasEnded = true) :
    a.status? = some .cancel ↔ a.isCancelled = true := by
  rw [Activity.status?, if_pos he, Option.some.injEq, Status.ofError_eq_cancel]
  rfl

/-- What the branches of a group contribute, once this is known of each of them. -/
theorem branches_eq {h : History} {path : List String} {bs : List (Activity U)}
    (he : ∀ b ∈ bs, h.entries path b.stage = b.entries)
    (hs : ∀ b ∈ bs, h.status (path ++ [b.stage.name]) = some .cancel ↔ b.isCancelled = true) :
    h.branches path (bs.map Activity.stage) = Activity.kept bs := by
  induction bs with
  | nil => rfl
  | cons b bs ih =>
    rw [List.map_cons, branches, ih (fun b hb => he b (List.mem_cons_of_mem _ hb))
      (fun b hb => hs b (List.mem_cons_of_mem _ hb)), Activity.kept, Activity.kept, List.filter_cons]
    by_cases hc : b.isCancelled = true
    · simp [hc, (hs b List.mem_cons_self).2 hc]
    · rw [if_neg fun e => hc ((hs b List.mem_cons_self).1 e), he b List.mem_cons_self]
      simp [hc]

/-- A stage that has ended yields what the history says it contributes. -/
theorem entries_eq_of_agrees {h : History} {a : Activity U} (ha : a.Sound) (he : a.hasEnded = true)
    {above : List String} (hag : h.Agrees (above ++ [a.stage.name]) a) :
    h.entries above a.stage = a.entries := by
  induction ha generalizing above with
  | @mk a here below ih =>
    have hp : a.phase ≠ .fanned := fun e => by simp [Activity.hasEnded, e] at he
    have hgroup : h.group (above ++ [a.stage.name]) a.stage.parallel =
        a.fan.map fun _ => Activity.kept a.branches := by
      cases hf : a.fan with
      | none =>
        cases hg : a.stage.parallel with
        | none => rfl
        | some stages =>
          rw [group, if_neg]
          · rfl
          · rw [List.any_eq_true]
            rintro ⟨b, _, hb⟩
            rw [isRecorded, hag.status_of_single (here.single hf)] at hb
            cases hb
      | some f =>
        have hended : ∀ b ∈ a.branches, b.hasEnded = true := fun b hb => here.hasEnded_of_mem hp hb
        have hstatus : ∀ b ∈ a.branches,
            h.status (above ++ [a.stage.name] ++ [b.stage.name]) = b.status? := fun b hb =>
          (hag.branch here hb).status_here
        have hany : ((a.branches.map Activity.stage).any fun b =>
            h.isRecorded (above ++ [a.stage.name] ++ [b.name])) = true := by
          obtain ⟨b, bs, hbs⟩ := List.exists_cons_of_ne_nil (here.ne_nil hf)
          have hb : b ∈ a.branches := by simp [hbs]
          refine List.any_eq_true.2 ⟨b.stage, List.mem_map_of_mem hb, ?_⟩
          rw [isRecorded, hstatus b hb, Activity.status?, if_pos (hended b hb)]
          rfl
        rw [here.grouped f hf, group, if_pos hany, Option.map_some]
        refine congrArg some (branches_eq (fun b hb => ?_) fun b hb => ?_)
        · exact ih b hb (hended b hb) (hag.branch here hb)
        · rw [hstatus b hb]
          exact status?_eq_cancel (hended b hb)
    rw [entries_eq, hgroup, hag.outputs_here, Activity.entries, here.value?_eq hp]

end History

namespace Activity

variable {U : Type}

/-- Stages that are merged into results one after the other, under names that are new. -/
theorem foldl_mergeInto_entries {as : List (Activity U)} {r : Results}
    (h : (r.names ++ as.map (·.stage.name)).Nodup) :
    (as.foldl (fun r a => a.mergeInto r) r).entries = r.entries ++ as.flatMap entries := by
  induction as generalizing r with
  | nil => simp
  | cons a as ih =>
    have hn : a.stage.name ∉ r.names := fun hm => by
      rw [List.nodup_append] at h
      exact h.2.2 _ hm a.stage.name (by simp) rfl
    have he := mergeInto_entries hn
    have hsub : (a.mergeInto r).names.Sublist (r.names ++ [a.stage.name]) := by
      rw [Results.names, he, List.map_append]
      refine (List.Sublist.refl _).append ?_
      have hone := entries_names_sublist [a]
      simpa using hone
    have h' : ((a.mergeInto r).names ++ as.map (·.stage.name)).Nodup := by
      refine h.sublist ?_
      rw [List.map_cons, ← List.singleton_append, ← List.append_assoc]
      exact hsub.append (List.Sublist.refl _)
    rw [List.foldl_cons, ih h', he, List.flatMap_cons, List.append_assoc]

/-- Where the outputs of a unit stand in the results around its stage: at its path, but in the map of its
group if it has one. -/
def outputsPath (path : List String) (s : Stage) : List String :=
  if s.parallel.isSome then path ++ [s.name] else path

theorem outputsPath_cons (name : String) (path : List String) (s : Stage) :
    outputsPath (name :: path) s = name :: outputsPath path s := by
  by_cases h : s.parallel.isSome <;> simp [outputsPath, h]

/-- The value of a stage with a group is a map with the entries of its branches and its own outputs. -/
theorem Coherent.exists_nested {a : Activity U} (h : a.Coherent) {f : Fan} (hf : a.fan = some f)
    (hp : a.phase ≠ .fanned) :
    ∃ es, a.value? = some (.nested es) ∧ (kept a.branches).Sublist es ∧ (es.map Prod.fst).Nodup ∧
      ∀ lines, a.lines = some lines → (a.stage.name, .outputs lines) ∈ es := by
  have hvalue := h.value?_eq hp
  have hkept : ((kept a.branches).map Prod.fst).Nodup := h.names.sublist (kept_names_sublist _)
  rw [hf] at hvalue
  cases hl : a.lines with
  | none =>
    rw [hl] at hvalue
    exact ⟨_, hvalue, List.Sublist.refl _, hkept, by simp⟩
  | some lines =>
    rw [hl] at hvalue
    refine ⟨_, hvalue, List.sublist_append_left _ _, ?_, by simp⟩
    rw [List.map_append, List.nodup_append]
    refine ⟨hkept, List.nodup_singleton _, ?_⟩
    rintro x hx y hy rfl
    obtain rfl := List.mem_singleton.1 hy
    exact h.name_notMem hf hl ((kept_names_sublist _).subset hx)

/-- The outputs of a unit are found in results that hold the entries of a stage above it, unless some
stage between was cancelled. -/
theorem getPath?_outputs {a n : Activity U} (ha : a.Sound) (he : a.hasEnded = true) {rest : List String}
    (hn : a.at? rest = some n) {lines : List String} (hl : n.lines = some lines)
    (hc : ∀ front name b, front ++ [name] <+: rest → a.at? (front ++ [name]) = some b →
      b.isCancelled = false)
    {r : Results} (hr : r.names.Nodup) (hsub : ∀ e ∈ a.entries, e ∈ r.entries) :
    r.getPath? (a.stage.name :: outputsPath rest n.stage) = some (.outputs lines) := by
  induction ha generalizing rest r with
  | @mk a here below ih =>
    have hp : a.phase ≠ .fanned := fun e => by simp [hasEnded, e] at he
    have hentry {v : StageValue} (hv : a.value? = some v) : r.get? a.stage.name = some v :=
      Results.get?_eq_some hr (hsub _ (by rw [entries, hv]; simp))
    cases rest with
    | nil =>
      obtain rfl := Option.some.inj hn
      cases hf : a.fan with
      | none =>
        have hg : a.stage.parallel = none := by
          rcases here.alone hf with e | e | ⟨ms, e, hph⟩
          · simp [hasEnded, e] at he
          · exact e
          · rw [lines_of_phase hph] at hl
            cases hl
        have hvalue := here.value?_eq hp
        rw [hl, hf] at hvalue
        rw [outputsPath, hg]
        exact hentry hvalue
      | some f =>
        obtain ⟨es, hv, _, hnodup, hmem⟩ := here.exists_nested hf hp
        rw [outputsPath, here.grouped f hf]
        simp only [Option.isSome_some, if_true, List.nil_append]
        rw [Results.getPath?_cons _ (by simp), hentry hv]
        exact Results.get?_eq_some hnodup (hmem lines hl)
    | cons name rest =>
      rw [at?, Option.bind_eq_some_iff] at hn
      obtain ⟨b, hb, hn⟩ := hn
      obtain ⟨hm, rfl⟩ := (named?_eq_some here.names).1 hb
      have hstep (path : List String) : a.at? (b.stage.name :: path) = b.at? path := by
        rw [at?, hb, Option.bind_some]
      obtain ⟨f, hf⟩ : ∃ f, a.fan = some f := Option.ne_none_iff_exists'.1 fun hf => by
        rw [here.single hf] at hm
        cases hm
      have hbe : b.hasEnded = true := here.hasEnded_of_mem hp hm
      have hbc : b.isCancelled = false := hc [] b.stage.name b ⟨rest, rfl⟩ (hstep [])
      obtain ⟨es, hv, hkept, hnodup, _⟩ := here.exists_nested hf hp
      have hih := ih b hm hbe hn (fun front name c hfront hcat => by
        obtain ⟨t, rfl⟩ := hfront
        refine hc (b.stage.name :: front) name c ⟨t, by simp⟩ ?_
        rw [List.cons_append, hstep]
        exact hcat) (r := ⟨es⟩) hnodup fun e he => hkept.subset
          (List.mem_flatMap.2 ⟨b, List.mem_filter.2 ⟨hm, by simp [hbc]⟩, he⟩)
      rw [outputsPath_cons, Results.getPath?_cons _ (by simp), hentry hv]
      exact hih

end Activity

namespace Run

variable {W U : Type} {s : Setting W U} {r : Run W U} {p : Pipeline} {w : W}

/-- What is known of a run: its ledger, and the outputs of its units. -/
def history (r : Run W U) : History := ⟨r.statusAt?, r.outputsAt?⟩

/-- That no insert made for the stages of a run overwrote an entry: neither those for the stages at the
top, which are merged into the results of the run in turn, nor those for the stages below, each of which
is merged into results of its own. -/
structure MergesFresh (r : Run W U) : Prop where
  top : ∀ front a back, r.past = front ++ a :: back →
    a.MergesFresh (front.foldl (fun results a => a.mergeInto results) .empty)
  below : ∀ n ∈ r.nodes, n.2.hasEnded = true → n.2.MergesFresh .empty

/-- That the outputs that units of recorded trees returned stand in the results, those under a branch
that was cancelled apart. -/
def KeepsOutputs (p : Pipeline) (r : Run W U) : Prop :=
  ∀ name path lines, r.history.outputs (name :: path) = some lines → r.history.isRecorded [name] = true →
    (∀ front branch, front ++ [branch] <+: path → r.history.status (name :: front ++ [branch]) ≠ some .cancel) →
    ∃ st, p.find? (name :: path) = some st ∧
      r.results.getPath? (Activity.outputsPath (name :: path) st) = some (.outputs lines)

section

variable (h : r.Sound p) (hm : r.Marked) (hp : p.Proper)

include h hm hp in
theorem agrees_of_mem {a : Activity U} (ha : a ∈ r.past ++ r.present.toList) :
    r.history.Agrees [a.stage.name] a := by
  intro rest
  have e : r.at? (a.stage.name :: rest) = a.at? rest := by
    rw [at?, (Activity.named?_eq_some (h.names hp)).2 ⟨ha, rfl⟩, Option.bind_some]
  rw [List.singleton_append, ← e]
  exact ⟨hm.statusAt?_eq h hp _, hm.outputsAt?_eq h hp _⟩

include h hm hp in
/-- Exactly the stages that have ended are recorded among those at the top. -/
theorem isRecorded_of_mem {a : Activity U} (ha : a ∈ r.past ++ r.present.toList) :
    r.history.isRecorded [a.stage.name] = a.hasEnded := by
  rw [History.isRecorded, (agrees_of_mem h hm hp ha).status_here, Activity.status?]
  cases a.hasEnded <;> rfl

include h hm hp in
theorem isRecorded_future {st : Stage} (hs : st ∈ r.future) : r.history.isRecorded [st.name] = false := by
  have e : (r.past ++ r.present.toList).map (·.stage.name) ++ r.future.map Stage.name =
      p.stages.map Stage.name := by
    rw [← h.stages]
    cases r.present <;> simp
  have hn : Activity.named? st.name (r.past ++ r.present.toList) = none := by
    rw [Activity.named?, List.find?_eq_none]
    intro a ha hname
    exact (List.nodup_append.1 (e ▸ hp.names)).2.2 _ (List.mem_map_of_mem ha) _
      (List.mem_map_of_mem hs) (by simpa using hname)
  have hat : r.at? [st.name] = none := by rw [at?, hn]; rfl
  have hstatus : r.history.status [st.name] = none := by
    refine (hm.statusAt?_eq h hp _).trans ?_
    rw [hat]
    rfl
  rw [History.isRecorded, hstatus]
  rfl

include h hp in
theorem results_entries : r.results.entries = r.past.flatMap Activity.entries := by
  have hn := h.names hp
  rw [List.map_append] at hn
  rw [h.results, Activity.foldl_mergeInto_entries]
  · rfl
  · simpa [Results.names, Results.empty] using (List.nodup_append.1 hn).1

include h hm hp in
theorem results_eq_history : r.results.entries = r.history.results p.stages := by
  have hpast : ∀ a ∈ r.past, a ∈ r.past ++ r.present.toList := fun a ha => List.mem_append_left _ ha
  rw [results_entries h hp, History.results, ← h.stages, List.flatMap_append, List.flatMap_append,
    List.flatMap_map]
  -- neither the stage at work nor those to come have contributed anything
  have hpresent : ((r.present.map Activity.stage).toList.flatMap fun s =>
      if r.history.isRecorded [s.name] then r.history.entries [] s else []) = [] := by
    cases ha : r.present with
    | none => rfl
    | some a =>
      have hrec := isRecorded_of_mem h hm hp (a := a) (by simp [ha])
      simp [hrec, (h.present a ha).2]
  have hfuture : (r.future.flatMap fun s =>
      if r.history.isRecorded [s.name] then r.history.entries [] s else []) = [] := by
    refine List.flatMap_eq_nil_iff.2 fun st hs => ?_
    rw [isRecorded_future h hm hp hs]
    rfl
  rw [hpresent, hfuture, List.append_nil, List.append_nil]
  refine List.flatMap_congr fun a ha => ?_
  have he := (h.past a ha).2
  rw [isRecorded_of_mem h hm hp (hpast a ha), if_pos he]
  have hagrees : r.history.Agrees ([] ++ [a.stage.name]) a := agrees_of_mem h hm hp (hpast a ha)
  exact (History.entries_eq_of_agrees (h.past a ha).1 he hagrees).symm

include h hp in
theorem mergesFresh : r.MergesFresh where
  top front a back hpast := by
    have ha : a ∈ r.past := by simp [hpast]
    have hn := h.names hp
    rw [hpast, List.append_assoc, List.map_append, List.nodup_append] at hn
    have hphase : a.phase ≠ .fanned := fun e => by
      have he := (h.past a ha).2
      simp [Activity.hasEnded, e] at he
    refine (h.past a ha).1.here.mergesFresh hphase fun hmem => ?_
    rw [Results.names, Activity.foldl_mergeInto_entries (by simpa [Results.names, Results.empty] using hn.1)]
      at hmem
    have hname := (Activity.entries_names_sublist front).subset (by simpa [Results.empty] using hmem)
    exact hn.2.2 _ hname _ (by simp) rfl
  below n hn he := by
    refine (h.sound_of_mem_nodes hn).here.mergesFresh (fun e => ?_) (by simp [Results.names, Results.empty])
    simp [Activity.hasEnded, e] at he

include h hm hp in
theorem keepsOutputs : r.KeepsOutputs p := by
  intro name path lines hout hrec hclear
  obtain ⟨n, hn, hl⟩ := Option.bind_eq_some_iff.1 ((hm.outputsAt?_eq h hp _).symm.trans hout)
  refine ⟨n.stage, h.find?_eq hp hn, ?_⟩
  obtain ⟨a, ha, hnode⟩ := Option.bind_eq_some_iff.1 hn
  obtain ⟨hmem, rfl⟩ := (Activity.named?_eq_some (h.names hp)).1 ha
  have hag := agrees_of_mem h hm hp hmem
  have he : a.hasEnded = true := by rwa [← isRecorded_of_mem h hm hp hmem]
  have hpast : a ∈ r.past := by
    rcases List.mem_append.1 hmem with hmem | hmem
    · exact hmem
    · rw [(h.present a (Option.mem_toList.1 hmem)).2] at he
      cases he
  have hres := results_entries h hp
  rw [Activity.outputsPath_cons]
  refine Activity.getPath?_outputs (h.sound_of_mem hmem) he hnode hl ?_ ?_ ?_
  · intro front branch b hfront hb
    by_contra hc
    rw [Bool.not_eq_false] at hc
    refine hclear front branch hfront ?_
    have hstatus := (hag (front ++ [branch])).1
    rw [hb, Option.bind_some, (History.status?_eq_cancel (Activity.hasEnded_of_isCancelled hc)).2 hc] at hstatus
    exact hstatus
  · have hn := h.names hp
    rw [List.map_append, List.nodup_append] at hn
    rw [Results.names, hres]
    exact hn.1.sublist (Activity.entries_names_sublist _)
  · intro e he
    rw [hres]
    exact List.mem_flatMap.2 ⟨a, hpast, he⟩

end

/-- The results of a run are those that follow from its ledger and the outputs of its units, in whatever
order its stages went on, ended and were joined, and whenever it was cancelled. No insert overwrote an
entry, and outputs are lost only under a branch that was cancelled. -/
theorem results_follow_history (hv : p.violation? = none) {moves : List Move}
    (h : (begin p w).moved s moves = some r) :
    r.results.entries = r.history.results p.stages ∧ r.MergesFresh ∧ r.KeepsOutputs p := by
  have hp := Pipeline.proper_of_violation?_eq_none hv
  have hs := sound_of_moved hp h
  have hm := marked_of_moved hp h
  exact ⟨results_eq_history hs hm hp, mergesFresh hs hp, keepsOutputs hs hm hp⟩

theorem results_follow_history_fork :
    ∃ r, (begin (.fork false) {}).moved forkSetting forkMoves = some r ∧ r.verdict.isSome = true ∧
      r.results.entries = r.history.results (Pipeline.fork false).stages ∧ r.MergesFresh ∧
      r.KeepsOutputs (.fork false) := by
  have hover : (((begin (.fork false) {}).moved forkSetting forkMoves).map fun r => r.verdict.isSome) =
      some true := by decide
  obtain ⟨r, hr, hv⟩ := Option.map_eq_some_iff.1 hover
  exact ⟨r, hr, hv, results_follow_history (by decide) hr⟩

end Run

end StageTree
