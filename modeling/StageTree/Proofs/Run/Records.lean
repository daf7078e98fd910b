import Mathlib.Algebra.Ring.Nat
import StageTree.Proofs.Run.Story

/-! The ledger of a run that is over, against the stage tree. Every stage whose scope was reached has one
record, after those of the stages below it; the stages at the top are recorded in turn up to the first one
that did not go well; and a stage leaves out its group only when it is cancelled before it starts. -/

namespace StageTree

variable {W U : Type}

/-- A ledger that fits a pipeline and the error that a run of it ended with, or that it ended without one. -/
structure Pipeline.Accounted (p : Pipeline) (records : List StageRecord) (error : Option RunError) : Prop where
  stages : ∀ rec ∈ records, ∃ st, p.find? rec.path = some st
  once : (records.map StageRecord.path).Nodup
  above : ∀ rec ∈ records, ∀ path, path ≠ [] → path <+: rec.path → path ∈ records.map StageRecord.path
  order : records.Pairwise fun first second => ¬ first.path <+: second.path
  /-- The stages at the top are recorded in their order, up to one of them. Those before it went well, and
  so did it, unless it is the one that the run ended with. -/
  top : ∃ front last rest status, p.stages = front ++ last :: rest ∧
    (records.filter (·.path.length = 1)).map (fun rec => (rec.path, rec.status)) =
      front.map (fun st => ([st.name], Status.ok)) ++ [([last.name], status)] ∧
    (status ≠ .ok ↔ error.isSome = true)
  groups : ∀ rec ∈ records, ∀ st branches, p.find? rec.path = some st → st.parallel = some branches →
    (∀ b ∈ branches, rec.path ++ [b.name] ∈ records.map StageRecord.path) ∨
      (∀ b ∈ branches, rec.path ++ [b.name] ∉ records.map StageRecord.path) ∧ rec.status = .cancel
  complete : error = none → records.length = p.stageCount ∧ ∀ rec ∈ records, rec.status = .ok

theorem Stage.countAll_eq_sum (stages : List Stage) : countAll stages = (stages.map count).sum := by
  induction stages with
  | nil => rfl
  | cons s stages ih => rw [countAll, ih, List.map_cons, List.sum_cons]

theorem Status.ofError_eq_ok {error : Option RunError} : Status.ofError error = .ok ↔ error = none := by
  cases error with
  | none => simp [ofError]
  | some e => cases h : e.isCancellation <;> simp [ofError, h]

namespace Activity

variable {a n : Activity U}

/-- Below a stage that has ended every stage has ended. -/
theorem Sound.hasEnded_of_mem_nodes (ha : a.Sound) (he : a.hasEnded = true) {path : List String}
    {n : List String × Activity U} (hn : n ∈ a.nodes path) : n.2.hasEnded = true := by
  induction ha generalizing path with
  | @mk a here below ih =>
    rw [nodes_eq, List.mem_cons, mem_nodesBelow] at hn
    rcases hn with rfl | ⟨b, hb, hn⟩
    · exact he
    · have hp : a.phase ≠ .fanned := fun e => by simp [Activity.hasEnded, e] at he
      exact ih b hb (here.hasEnded_of_mem hp hb) hn

/-- A stage that ended without an error has a node for every stage of its tree, and all of them ended so. -/
theorem Sound.nodes_of_clear (ha : a.Sound) (he : a.hasEnded = true) (hn : a.error? = none)
    (path : List String) :
    (a.nodes path).length = a.stage.count ∧ ∀ n ∈ a.nodes path, n.2.error? = none := by
  induction ha generalizing path with
  | @mk a here below ih =>
    have hbelow (b : Activity U) (hb : b ∈ a.branches) (path : List String) :=
      ih b hb (here.clear_of_mem he hn hb).1 (here.clear_of_mem he hn hb).2 path
    rw [nodes_eq, Stage.count_eq, here.stages_of_clear he hn, Stage.countAll_eq_sum, nodesBelow_eq_flatMap,
      List.length_cons, List.length_flatMap, List.map_map]
    refine ⟨?_, fun n hm => ?_⟩
    · rw [Nat.add_comm]
      exact congrArg (1 + List.sum ·) (List.map_congr_left fun b hb => (hbelow b hb _).1)
    · rcases List.mem_cons.1 hm with rfl | hm
      · exact hn
      · obtain ⟨b, hb, hm⟩ := List.mem_flatMap.1 hm
        exact (hbelow b hb _).2 n hm

/-- A stage with a group that ended without entering it was cancelled. -/
theorem Told.status_of_refused {vars : Bindings} {path : List String} {es : List Happening}
    (h : Told vars path a es) (he : a.hasEnded = true) (hf : a.fan = none) (hg : a.stage.parallel ≠ none) :
    Status.ofError a.error? = .cancel := by
  cases h with
  | refused hp _ hc =>
    rw [error?_of_phase hp]
    exact Status.ofError_eq_cancel.2 (by simpa using hc)
  | unstarted hp | gathering hp | working _ hp => simp [hasEnded, hp] at he
  | settled _ hfan => simp [hf] at hfan
  | returned _ _ hl =>
    cases hl with
    | alone _ hnone => exact absurd hnone hg
    | grouped hfan => simp [hf] at hfan

section Steps

variable {s : Setting W U} {m : Moment} {w : W} {x : Act} {p : Played W U}

/-- The records among the entries of an act are that of the stage, if it has ended. -/
theorem Acted.records (h : Acted s m w a x p) (ha : a.Coherent) :
    p.trace.filterMap Entry.record? = (p.activity.record? m.path).toList := by
  rw [← held_records, ← h.held_eq ha, List.filterMap_filterMap]
  exact List.filterMap_congr fun e _ => e.record?_eq

/-- The records of a step are those of the tree. -/
theorem Stepped.path_prefix_of_record (h : Stepped s x a m w p) (ha : a.Sound) {rec : StageRecord}
    (hr : rec ∈ p.trace.filterMap Entry.record?) : m.path <+: rec.path := by
  induction h with
  | here h =>
    rw [h.records ha.here] at hr
    exact (record?_eq_some (Option.mem_toList.1 hr)).1 ▸ List.prefix_refl _
  | @branch a b m w p f i hp hf hb h ih =>
    exact (List.prefix_append _ _).trans (ih (ha.branch (List.mem_of_getElem? hb)) hr)

/-- Of the stage at the top of the tree a step leaves a record exactly if the stage has ended. -/
theorem Stepped.records_top (h : Stepped s x a m w p) (ha : a.Sound) :
    (p.trace.filterMap Entry.record?).filter (·.path.length = m.path.length) =
      (p.activity.record? m.path).toList := by
  cases h with
  | here h =>
    rw [h.records ha.here]
    refine List.filter_eq_self.2 fun rec hr => ?_
    rw [(record?_eq_some (Option.mem_toList.1 hr)).1]
    simp
  | @branch _ b _ _ q f i hp hf hb h =>
    have hn : ({ a with branches := a.branches.set i q.activity } : Activity U).hasEnded = false := by
      simp [hasEnded, hp]
    rw [record?_eq_none hn]
    refine List.filter_eq_nil_iff.2 fun rec hr => ?_
    have hlen := (h.path_prefix_of_record (ha.branch (List.mem_of_getElem? hb)) hr).length_le
    rw [Moment.below, List.length_append, List.length_singleton] at hlen
    simpa using Nat.ne_of_gt hlen

end Steps

end Activity

namespace Run

variable {s : Setting W U} {r r' : Run W U} {p : Pipeline} {w : W}

/-- A run whose stages at the top are recorded in turn, each of them but the last without an error. -/
structure Paced (r : Run W U) : Prop where
  records : r.records.filter (·.path.length = 1) = r.past.flatMap fun a => (a.record? [a.stage.name]).toList
  clear : ∀ a ∈ r.past.dropLast, a.error? = none

theorem paced_begin (hp : p.Proper) (w : W) : (begin p w : Run W U).Paced := by
  obtain ⟨st, future, _, e⟩ := exists_begin_eq (U := U) hp w
  rw [e]
  exact ⟨rfl, by simp⟩

theorem Paced.take (h : r.Paced) (hs : r.Sound p) {a : Activity U} {q : Played W U} {x : Act} {draw : Nat}
    (ha : r.present = some a) (hq : Activity.Stepped s x a (r.moment a draw) r.world q) : (r.take q).Paced := by
  have hv : r.verdict = none := hs.going.2 (by simp [ha])
  have hclear : ∀ b ∈ r.past, b.error? = none := fun b hb => Option.eq_none_iff_forall_ne_some.2 fun e he => by
    rw [hs.error b hb e he] at hv
    cases hv
  have htop : ((r.trace ++ q.trace).filterMap Entry.record?).filter (·.path.length = 1) =
      (r.past ++ [q.activity]).flatMap fun a => (a.record? [a.stage.name]).toList := by
    rw [List.filterMap_append, List.filter_append, List.flatMap_append, List.flatMap_singleton, hq.stage_eq]
    exact congrArg₂ _ h.records (hq.records_top (hs.present a ha).1)
  -- what happens to the run itself leaves no record
  have hend (e : Entry) (he : e.record? = none) :
      ((r.trace ++ q.trace ++ [e]).filterMap Entry.record?).filter (·.path.length = 1) =
        (r.past ++ [q.activity]).flatMap fun a => (a.record? [a.stage.name]).toList := by
    rw [List.filterMap_append, List.filterMap_cons_none he, List.filterMap_nil, List.append_nil, htop]
  have htaking := taking_take r q
  generalize r.take q = r' at htaking ⊢
  cases htaking with
  | on hn =>
    refine ⟨htop.trans ?_, h.clear⟩
    simp [Activity.record?_eq_none hn]
  | next he hf => exact ⟨htop, by simpa using hclear⟩
  | completed he hf => exact ⟨hend _ rfl, by simpa using hclear⟩
  | failed he => exact ⟨hend _ rfl, by simpa using hclear⟩

theorem Paced.moved (h : r.Paced) (hs : r.Sound p) {move : Move} (hm : Moved s r move r') : r'.Paced := by
  cases hm with
  | stage ha hq => exact h.take hs ha (hs.stepped ha hq)
  | cancel reason =>
    rw [Run.cancel]
    split <;> exact ⟨h.records, h.clear⟩
  | tick hlt => exact ⟨h.records, h.clear⟩

theorem paced_of_moved (hp : p.Proper) {moves : List Move} (h : (begin p w).moved s moves = some r) :
    r.Paced :=
  moved_induction (P := fun _ r => r.Paced) (paced_begin hp w)
    (fun _ _ _ _ hq hpaced hstep => hpaced.moved (sound_of_moved hp hq) (moved_of_step hstep).2) h

/-! ### A run that is over -/

namespace Sound

theorem present_eq_none (h : r.Sound p) (hover : r.verdict.isSome = true) : r.present = none := by
  cases ha : r.present with
  | none => rfl
  | some a => simp [h.going.2 (by simp [ha])] at hover

theorem stages_of_over (h : r.Sound p) (hover : r.verdict.isSome = true) :
    r.past.map Activity.stage ++ r.future = p.stages := by
  have hstages := h.stages
  rwa [h.present_eq_none hover, Option.map_none, Option.toList_none, List.append_nil] at hstages

/-- All stages of a run that is over have ended. -/
theorem hasEnded_of_over (h : r.Sound p) (hp : p.Proper) (hover : r.verdict.isSome = true)
    {path : List String} {n : Activity U} (hn : r.at? path = some n) : n.hasEnded = true := by
  have hm := (h.mem_nodes hp).2 hn
  rw [nodes, h.present_eq_none hover, Option.toList_none, List.append_nil] at hm
  obtain ⟨a, ha, hm⟩ := Activity.mem_nodesBelow.1 hm
  exact (h.past a ha).1.hasEnded_of_mem_nodes (h.past a ha).2 hm

/-- A run that is over got to a last stage at the top, and ended with the error of that stage. -/
theorem exists_last (h : r.Sound p) (hp : p.Proper) (hover : r.verdict.isSome = true) :
    ∃ front last, r.past = front ++ [last] ∧ r.error? = last.error? := by
  obtain ⟨verdict, hv⟩ := Option.isSome_iff_exists.1 hover
  have herror : r.error? = verdict := by rw [error?, hv, Option.join_some]
  cases verdict with
  | some e =>
    obtain ⟨front, last, hpast, he⟩ := h.verdict e hv
    exact ⟨front, last, hpast, herror.trans he.symm⟩
  | none =>
    have hne : r.past ≠ [] := fun hpast => hp.stages (by
      rw [← h.stages_of_over hover, hpast, h.future hv, List.map_nil, List.append_nil])
    refine ⟨_, _, (List.dropLast_concat_getLast hne).symm, ?_⟩
    rw [herror, eq_comm, Option.eq_none_iff_forall_ne_some]
    intro e he
    simp [h.error _ (List.getLast_mem hne) e he] at hv

end Sound

theorem exists_at?_above {path rest : List String} {n : Activity U} (hne : path ≠ [])
    (hfront : path <+: rest) (hn : r.at? rest = some n) : ∃ n', r.at? path = some n' := by
  obtain ⟨more, rfl⟩ := hfront
  rw [at?_append hne] at hn
  obtain ⟨n', hn', _⟩ := Option.bind_eq_some_iff.1 hn
  exact ⟨n', hn'⟩

section Over

variable (hs : r.Sound p) (hm : r.Marked) (hp : p.Proper)

include hs hm hp in
/-- Once a run is over the stages that have records are those that it got to. -/
theorem mem_paths_of_over (hover : r.verdict.isSome = true) {path : List String} :
    path ∈ r.records.map StageRecord.path ↔ ∃ n, r.at? path = some n := by
  rw [List.mem_map]
  constructor
  · rintro ⟨rec, hrec, rfl⟩
    obtain ⟨n, hn, _⟩ := (hm.mem_records hs hp).1 hrec
    exact ⟨n, hn⟩
  · rintro ⟨n, hn⟩
    obtain ⟨ms, lines, error, hph⟩ := Activity.hasEnded_iff.1 (hs.hasEnded_of_over hp hover hn)
    exact ⟨_, hm.mem_of_record? hs hp hn (Activity.record?_of_phase path hph), rfl⟩

/-- The records of stages come before those of the stages above them. -/
theorem records_order {vars : Bindings} (hf : r.Final) (ht : r.Tells vars) :
    r.records.Pairwise fun first second => ¬ first.path <+: second.path := by
  have hpath {e : Entry} {rec : StageRecord} (he : e ∈ r.trace) (hr : e.record? = some rec) :
      rec.path = e.path := by
    obtain ⟨n, _, hrec⟩ := ht.exists_of_record he hr
    exact (Activity.record?_eq_some hrec).1
  rw [records, List.pairwise_filterMap]
  refine (List.Pairwise.and_mem.1 hf).imp fun {e e'} h rec hr rec' hr' => ?_
  obtain ⟨he, he', hfinal⟩ := h
  rw [hpath he hr, hpath he' hr']
  exact hfinal (by simp [hr])

include hs hp in
/-- The stages at the top are recorded in their order, up to the one that the run ended with. -/
theorem records_top (hpaced : r.Paced) (hover : r.verdict.isSome = true) :
    ∃ front last rest status, p.stages = front ++ last :: rest ∧
      (r.records.filter (·.path.length = 1)).map (fun rec => (rec.path, rec.status)) =
        front.map (fun st => ([st.name], Status.ok)) ++ [([last.name], status)] ∧
      (status ≠ .ok ↔ r.error?.isSome = true) := by
  obtain ⟨front, a, hpast, herror⟩ := hs.exists_last hp hover
  have hrow (b : Activity U) (hb : b ∈ r.past) :
      (b.record? [b.stage.name]).toList.map (fun rec => (rec.path, rec.status)) =
        [([b.stage.name], Status.ofError b.error?)] := by
    obtain ⟨ms, lines, error, hph⟩ := Activity.hasEnded_iff.1 (hs.past b hb).2
    rw [Activity.record?_of_phase _ hph, Activity.error?_of_phase hph]
    rfl
  refine ⟨front.map Activity.stage, a.stage, r.future, Status.ofError a.error?, ?_, ?_, ?_⟩
  · rw [← hs.stages_of_over hover, hpast]
    simp
  · rw [hpaced.records, List.map_flatMap, List.flatMap_congr hrow, hpast, List.flatMap_append,
      List.flatMap_singleton, List.map_map, List.map_eq_flatMap]
    refine congrArg (· ++ _) (List.flatMap_congr fun b hb => ?_)
    rw [hpaced.clear b (by rw [hpast, List.dropLast_concat]; exact hb)]
    rfl
  · rw [ne_eq, Status.ofError_eq_ok, herror, Option.isSome_iff_ne_none]

include hs hm hp in
/-- If a stage that has a record has a group then all branches have records, or none has and the stage was
cancelled. -/
theorem records_groups {vars : Bindings} (ht : r.Tells vars) (hover : r.verdict.isSome = true)
    {rec : StageRecord} (hrec : rec ∈ r.records) {st : Stage} {branches : List Stage}
    (hst : p.find? rec.path = some st) (hg : st.parallel = some branches) :
    (∀ b ∈ branches, rec.path ++ [b.name] ∈ r.records.map StageRecord.path) ∨
      (∀ b ∈ branches, rec.path ++ [b.name] ∉ r.records.map StageRecord.path) ∧ rec.status = .cancel := by
  obtain ⟨n, hn, hnrec⟩ := (hm.mem_records hs hp).1 hrec
  obtain rfl : n.stage = st := Option.some.inj ((hs.find?_eq hp hn).symm.trans hst)
  obtain ⟨_, hstatus, he⟩ := Activity.record?_eq_some hnrec
  have hsound := hs.sound_of_at? hp hn
  cases hf : n.fan with
  | some f =>
    obtain rfl : n.branches.map Activity.stage = branches :=
      Option.some.inj ((hsound.here.grouped f hf).symm.trans hg)
    refine .inl fun b hb => ?_
    obtain ⟨c, hc, rfl⟩ := List.mem_map.1 hb
    exact (mem_paths_of_over hs hm hp hover).2 ⟨c, hs.at?_branch hp hn hc⟩
  | none =>
    refine .inr ⟨fun b _ hmem => ?_, ?_⟩
    · obtain ⟨c, hc⟩ := (mem_paths_of_over hs hm hp hover).1 hmem
      rw [at?_append (ne_nil_of_at? hn), hn, Option.bind_some, Activity.at?, hsound.here.single hf] at hc
      cases hc
    · rw [hstatus]
      exact (ht.told hn).status_of_refused he hf (by simp [hg])

include hs hm hp in
/-- A run that ended without an error has recorded every stage, and all of them went well. -/
theorem records_complete (hpaced : r.Paced) (hover : r.verdict.isSome = true) (hnone : r.error? = none) :
    r.records.length = p.stageCount ∧ ∀ rec ∈ r.records, rec.status = .ok := by
  obtain ⟨front, last, hpast, herror⟩ := hs.exists_last hp hover
  have hclear : ∀ a ∈ r.past, a.error? = none := fun a ha => by
    rw [hpast] at ha
    rcases List.mem_append.1 ha with ha | ha
    · exact hpaced.clear a (by rwa [hpast, List.dropLast_concat])
    · rw [List.mem_singleton.1 ha, ← herror, hnone]
  have hv : r.verdict = some none := by
    obtain ⟨verdict, hv⟩ := Option.isSome_iff_exists.1 hover
    rw [error?, hv, Option.join_some] at hnone
    rw [hv, hnone]
  have hnodes : r.nodes = r.past.flatMap fun a => a.nodes [a.stage.name] := by
    rw [nodes, hs.present_eq_none hover, Option.toList_none, List.append_nil, Activity.nodesBelow_eq_flatMap]
    rfl
  have htree (a : Activity U) (ha : a ∈ r.past) :=
    (hs.past a ha).1.nodes_of_clear (hs.past a ha).2 (hclear a ha) [a.stage.name]
  constructor
  · have hended : ∀ n ∈ r.nodes, (n.2.record? n.1).isSome = true := fun n hn => by
      obtain ⟨ms, lines, error, hph⟩ :=
        Activity.hasEnded_iff.1 (hs.hasEnded_of_over hp hover ((hs.mem_nodes hp).1 hn))
      rw [Activity.record?_of_phase _ hph]
      rfl
    rw [hm.records_perm.length_eq, List.length_filterMap_eq_countP, List.countP_eq_length.2 hended, hnodes,
      List.length_flatMap, Pipeline.stageCount, ← hs.stages_of_over hover, hs.future hv, List.append_nil,
      Stage.countAll_eq_sum, List.map_map]
    exact congrArg List.sum (List.map_congr_left fun a ha => (htree a ha).1)
  · intro rec hrec
    obtain ⟨n, hn, hnrec⟩ := (hm.mem_records hs hp).1 hrec
    have hmem := (hs.mem_nodes hp).2 hn
    rw [hnodes] at hmem
    obtain ⟨a, ha, hmem⟩ := List.mem_flatMap.1 hmem
    rw [(Activity.record?_eq_some hnrec).2.1, (htree a ha).2 _ hmem]
    rfl

end Over

/-- When a run is over its ledger fits the pipeline and its error, in whatever order its stages went on,
ended and were joined, and whenever it was cancelled. -/
theorem accounted_of_over (hv : p.violation? = none) {moves : List Move}
    (h : (begin p w).moved s moves = some r) (hover : r.verdict.isSome = true) :
    p.Accounted r.records r.error? := by
  have hp := Pipeline.proper_of_violation?_eq_none hv
  have hs := sound_of_moved hp h
  have hm := marked_of_moved hp h
  have ht := tells_of_moved hp h
  have hpaced := paced_of_moved hp h
  exact
    { stages := fun rec hrec => by
        obtain ⟨n, hn, _⟩ := (hm.mem_records hs hp).1 hrec
        exact ⟨n.stage, hs.find?_eq hp hn⟩
      once := hm.records_nodup hs hp
      above := fun rec hrec path hne hfront => by
        obtain ⟨n, hn, _⟩ := (hm.mem_records hs hp).1 hrec
        exact (mem_paths_of_over hs hm hp hover).2 (exists_at?_above hne hfront hn)
      order := records_order (final_of_moved hp h) ht
      top := records_top hs hp hpaced hover
      groups := fun rec hrec st branches => records_groups hs hm hp ht hover hrec
      complete := records_complete hs hm hp hpaced hover }

theorem accounted_of_over_fork :
    ∃ r, (begin (.fork false) {}).moved forkSetting forkMoves = some r ∧ r.verdict.isSome = true ∧
      (Pipeline.fork false).Accounted r.records r.error? := by
  have hover : (((begin (.fork false) {}).moved forkSetting forkMoves).map fun r => r.verdict.isSome) =
      some true := by decide
  obtain ⟨r, hr, hv⟩ := Option.map_eq_some_iff.1 hover
  exact ⟨r, hr, hv, accounted_of_over (by decide) hr hv⟩

end Run

end StageTree
