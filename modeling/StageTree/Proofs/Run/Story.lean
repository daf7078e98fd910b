import StageTree.Proofs.Activity.Story
import StageTree.Proofs.Run.Ledger

/-! The stories of the stages of a run. What the trace tells of a stage fits how the stage stands, and of
a stage that is not there yet it tells nothing. Once a stage has ended, nothing more happens to it or to
a stage below it. -/

namespace StageTree

variable {W U : Type} {s : Setting W U} {p : Pipeline} {w : W}

namespace Activity

variable {vars : Bindings} {path : List String} {a : Activity U} {es : List Happening}

/-- The record in the story of a stage is the one that the stage leaves. -/
theorem Told.records (h : Told vars path a es) :
    es.filterMap Happening.record? = (a.record? path).toList := by
  rw [← Happening.filterMap_outline (by rintro ⟨⟩ <;> simp [Happening.isDetail, Happening.record?])]
  have ho := h.outlined
  generalize Happening.outline es = os at ho ⊢
  cases ho with
  | unstarted hp | gathering hp | working hp =>
    rw [record?_eq_none (by simp [hasEnded, hp])]
    rfl
  | alone hp | returned hp =>
    rw [record?_of_phase path hp]
    rfl

/-- What has been told of stages at the top and of those below them, and of no others. The run itself
leaves no records. -/
structure TellsAll (vars : Bindings) (trace : List Entry) (as : List (Activity U)) : Prop where
  trees : ∀ a ∈ as, Tells vars trace [a.stage.name] a
  silent : ∀ name rest, (∀ a ∈ as, a.stage.name ≠ name) → Entry.storyAt (name :: rest) trace = []
  top : ∀ e ∈ trace, e.path = [] → e.record? = none

namespace TellsAll

variable {trace : List Entry} {as : List (Activity U)}

/-- What happens to the run itself is told of no stage. -/
theorem entry (h : TellsAll vars trace as) {e : Entry} (he : e.path = []) (hr : e.record? = none) :
    TellsAll vars (trace ++ [e]) as where
  trees a ha := (h.trees a ha).append_of_ne fun e' he' rest => by
    rw [List.mem_singleton.1 he', he]
    simp
  silent name rest hn := by
    rw [Entry.storyAt_append_of_ne fun e' he' => by rw [List.mem_singleton.1 he', he]; simp]
    exact h.silent name rest hn
  top e' he' hp := by
    rcases List.mem_append.1 he' with he' | he'
    · exact h.top e' he' hp
    · exact List.mem_singleton.1 he' ▸ hr

/-- A stage of a new name has no story yet. -/
theorem ofStage (h : TellsAll vars trace as) {st : Stage} (hn : ∀ a ∈ as, a.stage.name ≠ st.name) :
    TellsAll vars trace (as ++ [.ofStage st]) where
  trees a ha := by
    rcases List.mem_append.1 ha with ha | ha
    · exact h.trees a ha
    · obtain rfl := List.mem_singleton.1 ha
      exact .ofStage fun rest => h.silent st.name rest hn
  silent name rest hne := h.silent name rest fun a ha => hne a (List.mem_append_left _ ha)
  top := h.top

/-- A step of the last stage goes on with one story. -/
theorem step {front : List (Activity U)} {x : Act} {m : Moment} {q : Played W U}
    (h : TellsAll s.vars trace (front ++ [a])) (hn : ((front ++ [a]).map (·.stage.name)).Nodup)
    (hm : m.path = [a.stage.name]) (ha : a.Sound) (hq : Stepped s x a m w q) :
    TellsAll s.vars (trace ++ q.trace) (front ++ [q.activity]) := by
  obtain ⟨rest, hpath, _⟩ := hq.exists_path ha
  have hpath : ∀ e ∈ q.trace, e.path = a.stage.name :: rest := by simpa [hm] using hpath
  have hne : ∀ b ∈ front, b.stage.name ≠ a.stage.name := fun b hb e => by
    rw [List.map_append, List.nodup_append] at hn
    exact hn.2.2 _ (List.mem_map_of_mem hb) a.stage.name (by simp) e
  refine ⟨fun b hb => ?_, fun name path hname => ?_, fun e he hp => ?_⟩
  · rcases List.mem_append.1 hb with hb | hb
    · refine (h.trees b (List.mem_append_left _ hb)).append_of_ne fun e he path => ?_
      rw [hpath e he]
      exact fun e => hne b hb (List.cons.inj e).1.symm
    · obtain rfl := List.mem_singleton.1 hb
      rw [hq.stage_eq, ← hm]
      exact hq.tells ha (hm ▸ h.trees a (by simp))
  · have hna : a.stage.name ≠ name := hq.stage_eq ▸ hname q.activity (by simp)
    rw [Entry.storyAt_append_of_ne fun e he => by simp [hpath e he, hna]]
    refine h.silent name path fun b hb => ?_
    rcases List.mem_append.1 hb with hb | hb
    · exact hname b (List.mem_append_left _ hb)
    · exact List.mem_singleton.1 hb ▸ hna
  · rcases List.mem_append.1 he with he | he
    · exact h.top e he hp
    · simp [hpath e he] at hp

end TellsAll

/-! ### A record is the last of a story -/

section Last

variable {x : Act} {m : Moment} {q : Played W U}

theorem Taken.record_last {since : Nat} {t : Turn W U} {phase : Phase U} {w' : W} {trace : List Entry}
    (h : Taken m since t phase w' trace) : trace.Pairwise fun e _ => e.record? = none := by
  have noted (notes : List Note) : ∀ e ∈ notes.map fun n => m.entry (.noted n), e.record? = none := by
    simp [Moment.entry, Entry.record?]
  cases h with
  | waits w notes u => exact List.pairwise_of_forall_mem_list fun e he _ _ => noted notes e he
  | returns w notes r =>
    refine List.pairwise_append.2 ⟨List.pairwise_of_forall_mem_list fun e he _ _ => noted notes e he, ?_,
      fun e he _ _ => noted notes e he⟩
    exact List.pairwise_pair.2 rfl

theorem Onward.record_last {stage : Stage} {since : Nat} {phase : Phase U} {w' : W} {trace : List Entry}
    (h : Onward s m stage since w phase w' trace) : trace.Pairwise fun e _ => e.record? = none := by
  cases h with
  | idle _ => exact List.pairwise_singleton _ _
  | unit _ ht => exact List.pairwise_cons.2 ⟨fun _ _ => rfl, ht.record_last⟩

theorem record?_joiningEntries {f : Fan} {r : Report Results} {e : Entry}
    (he : e ∈ a.joiningEntries f r m) : e.record? = none := by
  rw [joiningEntries] at he
  split at he
  · rcases List.mem_pair.1 he with rfl | rfl <;> rfl
  · exact List.mem_singleton.1 he ▸ rfl

/-- Of the entries of a step only the last one can leave a record. -/
theorem Stepped.record_last (h : Stepped s x a m w q) : q.trace.Pairwise fun e _ => e.record? = none := by
  induction h with
  | branch hp hf hb h ih => exact ih
  | @here a m w q h =>
    have joining (f : Fan) (r : Report Results) :
        (a.joiningEntries f r m).Pairwise fun e _ => e.record? = none :=
      List.pairwise_of_forall_mem_list fun e he _ _ => record?_joiningEntries he
    cases h with
    | refused | fanned => exact List.pairwise_pair.2 rfl
    | begun hp hs hg ho => exact List.pairwise_cons.2 ⟨fun _ _ => rfl, ho.record_last⟩
    | looked hp ht => exact ht.record_last
    | joined => exact joining _ _
    | failed =>
      exact List.pairwise_append.2 ⟨joining _ _, List.pairwise_singleton _ _,
        fun e he _ _ => record?_joiningEntries he⟩
    | gathered hp hf hb he hj hl hr ho =>
      exact List.pairwise_append.2 ⟨joining _ _, ho.record_last, fun e he _ _ => record?_joiningEntries he⟩

end Last

end Activity

namespace Run

variable {r r' : Run W U}

/-- What happened to the stage at a path, in order. -/
def story (r : Run W U) (path : List String) : List Happening := Entry.storyAt path r.trace

/-- A run whose trace tells of its stages what fits them. -/
def Tells (vars : Bindings) (r : Run W U) : Prop :=
  Activity.TellsAll vars r.trace (r.past ++ r.present.toList)

theorem tells_begin (hp : p.Proper) (vars : Bindings) (w : W) : (begin p w : Run W U).Tells vars := by
  obtain ⟨st, future, _, e⟩ := exists_begin_eq (U := U) hp w
  rw [e]
  have hnone : Activity.TellsAll vars [⟨0, [], .runStarted p.stageCount⟩] ([] : List (Activity U)) := by
    refine ⟨by simp, fun name rest _ => ?_, fun e he _ => ?_⟩
    · exact Entry.storyAt_eq_nil fun e he => by rw [List.mem_singleton.1 he]; simp
    · rw [List.mem_singleton.1 he]
      rfl
  exact hnone.ofStage (by simp)

theorem Tells.take (h : r.Tells s.vars) (hs : r.Sound p) (hp : p.Proper) {a : Activity U} {q : Played W U}
    {x : Act} {draw : Nat} (ha : r.present = some a)
    (hq : Activity.Stepped s x a (r.moment a draw) r.world q) : (r.take q).Tells s.vars := by
  have hnames := hs.names hp
  have hnames' := (hs.take hp ha hq).names hp
  rw [Tells, ha, Option.toList_some] at h
  rw [ha, Option.toList_some] at hnames
  have hstep := h.step hnames rfl (hs.present a ha).1 hq
  have htaking := taking_take r q
  generalize r.take q = r' at hnames' htaking ⊢
  cases htaking with
  | on hn => exact hstep
  | @next ms lines st future he hf =>
    refine hstep.ofStage fun b hb e => ?_
    rw [Option.toList_some, List.map_append, List.nodup_append] at hnames'
    exact hnames'.2.2 _ (List.mem_map_of_mem hb) st.name (by simp [Activity.ofStage]) e
  | completed he hf =>
    rw [Tells, Option.toList_none, List.append_nil]
    exact hstep.entry rfl rfl
  | failed he =>
    rw [Tells, Option.toList_none, List.append_nil]
    exact hstep.entry rfl rfl

theorem Tells.cancel {vars : Bindings} (h : r.Tells vars) (reason : String) : (r.cancel reason).Tells vars := by
  rw [Run.cancel]
  split
  · exact h
  · refine ⟨fun a ha => ?_, fun name rest hn => h.silent name rest fun a ha => ?_, h.top⟩
    · rcases List.mem_append.1 ha with ha | ha
      · exact h.trees a (List.mem_append_left _ ha)
      · obtain ⟨b, hb, rfl⟩ := Option.map_eq_some_iff.1 (Option.mem_toList.1 ha)
        rw [Activity.cancel_stage]
        exact (h.trees b (List.mem_append_right _ (Option.mem_toList.2 hb))).cancel reason
    · rcases List.mem_append.1 ha with ha | ha
      · exact hn a (List.mem_append_left _ ha)
      · have := hn (a.cancel reason) (List.mem_append_right _ (by simp [Option.mem_toList.1 ha]))
        rwa [Activity.cancel_stage] at this

theorem Tells.moved (h : r.Tells s.vars) (hs : r.Sound p) (hp : p.Proper) {move : Move}
    (hm : Moved s r move r') : r'.Tells s.vars := by
  cases hm with
  | stage ha hq => exact h.take hs hp ha (hs.stepped ha hq)
  | cancel reason => exact h.cancel reason
  | tick hlt => exact h

/-- The trace of a run tells of its stages what fits them. -/
theorem tells_of_moved (hp : p.Proper) {moves : List Move} (h : (begin p w).moved s moves = some r) :
    r.Tells s.vars :=
  moved_induction (P := fun _ r => r.Tells s.vars) (tells_begin hp s.vars w)
    (fun _ _ _ _ hq ht hstep => ht.moved (sound_of_moved hp hq) hp (moved_of_step hstep).2) h

namespace Tells

variable {vars : Bindings}

/-- The story of a stage fits how it stands. -/
theorem told (h : r.Tells vars) {path : List String} {n : Activity U} (hn : r.at? path = some n) :
    n.Told vars path (r.story path) := by
  cases path with
  | nil => cases hn
  | cons name rest =>
    obtain ⟨a, ha, hat⟩ := Option.bind_eq_some_iff.1 hn
    have hname : a.stage.name = name := by simpa using List.find?_some ha
    have ht := (h.trees a (List.mem_of_find?_eq_some ha)).told rest hat
    rwa [hname] at ht

/-- A stage that is not there yet has no story. -/
theorem silent_of_at? (h : r.Tells vars) {name : String} {rest : List String}
    (hn : r.at? (name :: rest) = none) : r.story (name :: rest) = [] := by
  rw [at?] at hn
  cases ha : Activity.named? name (r.past ++ r.present.toList) with
  | none => exact h.silent name rest fun a hm => by simpa using List.find?_eq_none.1 ha a hm
  | some a =>
    rw [ha, Option.bind_some] at hn
    have hname : a.stage.name = name := by simpa using List.find?_some ha
    have ht := (h.trees a (List.mem_of_find?_eq_some ha)).silent rest hn
    rwa [hname] at ht

/-- A stage of which something is told is there. -/
theorem exists_at? (h : r.Tells vars) {path : List String} (hne : path ≠ []) (hs : r.story path ≠ []) :
    ∃ n, r.at? path = some n := by
  cases hn : r.at? path with
  | some n => exact ⟨n, rfl⟩
  | none =>
    obtain ⟨name, rest, rfl⟩ := List.exists_cons_of_ne_nil hne
    exact absurd (h.silent_of_at? hn) hs

/-- An entry that leaves a record is about the stage whose record it is, and that stage has ended. -/
theorem exists_of_record (h : r.Tells vars) {e : Entry} (he : e ∈ r.trace) {rec : StageRecord}
    (hr : e.record? = some rec) : ∃ n, r.at? e.path = some n ∧ n.record? e.path = some rec := by
  have hmem : rec ∈ (r.story e.path).filterMap Happening.record? :=
    List.mem_filterMap.2 ⟨e.what, Entry.mem_storyAt.2 ⟨e, he, rfl, rfl⟩, hr⟩
  cases hpath : e.path with
  | nil =>
    rw [h.top e he hpath] at hr
    cases hr
  | cons name rest =>
    rw [hpath] at hmem
    cases hn : r.at? (name :: rest) with
    | none => simp [h.silent_of_at? hn] at hmem
    | some n =>
      rw [(h.told hn).records] at hmem
      exact ⟨n, rfl, Option.mem_toList.1 hmem⟩

end Tells

/-- A trace in which nothing happens to a stage, or below it, after it has left its record. -/
def Final (r : Run W U) : Prop := r.trace.Pairwise fun a b => a.record?.isSome = true → ¬ a.path <+: b.path

theorem final_begin (p : Pipeline) (w : W) : (begin p w : Run W U).Final := by
  rw [Final, begin, advance]
  cases p.stages <;> simp [Entry.record?, entry]

theorem Final.take (h : r.Final) (hs : r.Sound p) (hp : p.Proper) (ht : r.Tells s.vars) {a : Activity U}
    {q : Played W U} {x : Act} {draw : Nat} (ha : r.present = some a)
    (hq : Activity.Stepped s x a (r.moment a draw) r.world q) : (r.take q).Final := by
  obtain ⟨rest, hpath, hopen⟩ := hq.exists_path (hs.present a ha).1
  have hpath : ∀ e ∈ q.trace, e.path = a.stage.name :: rest := by simpa [moment] using hpath
  -- the stage that acts and those above it have left no records
  have hbefore : ∀ e ∈ r.trace, e.record?.isSome = true → ¬ e.path <+: a.stage.name :: rest :=
    fun e he hr hfront => by
      obtain ⟨rec, hrec⟩ := Option.isSome_iff_exists.1 hr
      obtain ⟨n, hn, hnrec⟩ := ht.exists_of_record he hrec
      cases hepath : e.path with
      | nil =>
        rw [hepath] at hn
        cases hn
      | cons name front =>
        rw [hepath] at hn hfront
        obtain ⟨rfl, hrest⟩ := List.cons_prefix_cons.1 hfront
        obtain ⟨n', hn', hne⟩ := hopen front hrest
        rw [at?, (Activity.named?_eq_some (hs.names hp)).2 ⟨by simp [ha], rfl⟩, Option.bind_some, hn'] at hn
        obtain rfl := Option.some.inj hn
        rw [Activity.record?_eq_none hne] at hnrec
        cases hnrec
  have hstep : (r.trace ++ q.trace).Pairwise fun a b => a.record?.isSome = true → ¬ a.path <+: b.path := by
    refine List.pairwise_append.2 ⟨h, hq.record_last.imp fun hn hr => ?_, fun e he e' he' hr => ?_⟩
    · rw [hn] at hr
      cases hr
    · rw [hpath e' he']
      exact hbefore e he hr
  -- what happens to the run itself happens to no stage
  have htop (e : Entry) (he : e.path = []) :
      (r.trace ++ q.trace ++ [e]).Pairwise fun a b => a.record?.isSome = true → ¬ a.path <+: b.path := by
    refine List.pairwise_append.2 ⟨hstep, List.pairwise_singleton _ _, fun e' he' e'' he'' hr hfront => ?_⟩
    rw [List.mem_singleton.1 he'', he, List.prefix_nil] at hfront
    rcases List.mem_append.1 he' with he' | he'
    · rw [ht.top e' he' hfront] at hr
      cases hr
    · rw [hpath e' he'] at hfront
      cases hfront
  have htaking := taking_take r q
  generalize r.take q = r' at htaking ⊢
  cases htaking with
  | on hn => exact hstep
  | next he hf => exact hstep
  | completed he hf => exact htop _ rfl
  | failed he => exact htop _ rfl

theorem Final.moved (h : r.Final) (hs : r.Sound p) (hp : p.Proper) (ht : r.Tells s.vars)
    {move : Move} (hm : Moved s r move r') : r'.Final := by
  cases hm with
  | stage ha hq => exact h.take hs hp ht ha (hs.stepped ha hq)
  | cancel reason =>
    rw [Run.cancel]
    split <;> exact h
  | tick hlt => exact h

/-- Once a stage of a run has left its record nothing more happens to it or below it. -/
theorem final_of_moved (hp : p.Proper) {moves : List Move} (h : (begin p w).moved s moves = some r) :
    r.Final :=
  moved_induction (P := fun _ r => r.Final) (final_begin p w)
    (fun _ _ _ _ hq hf hstep =>
      hf.moved (sound_of_moved hp hq) hp (tells_of_moved hp hq) (moved_of_step hstep).2) h

end Run

end StageTree
