import StageTree.Proofs.Run.Handed
import StageTree.Proofs.Run.InFlight
import StageTree.Proofs.Run.Status

/-! When the units of a run are submitted, and what they are. The steps of a stage are submitted at most
once, as its own unit; what has to come first is recorded before; and units that are in flight together
belong to different branches of a group. -/

namespace StageTree

variable {W U : Type}

/-- Two lists of which neither goes on from the other part at some place. -/
theorem exists_parting {α : Type} {l l' : List α} (h : ¬ l <+: l') (h' : ¬ l' <+: l) :
    ∃ above x x', x ≠ x' ∧ above ++ [x] <+: l ∧ above ++ [x'] <+: l' := by
  induction l generalizing l' with
  | nil => exact absurd List.nil_prefix h
  | cons x l ih =>
    cases l' with
    | nil => exact absurd List.nil_prefix h'
    | cons x' l' =>
      by_cases hx : x = x'
      · subst hx
        have hparted : ¬ l <+: l' ∧ ¬ l' <+: l :=
          ⟨fun hl => h (List.cons_prefix_cons.2 ⟨rfl, hl⟩), fun hl => h' (List.cons_prefix_cons.2 ⟨rfl, hl⟩)⟩
        obtain ⟨above, y, y', hne, hl, hl'⟩ := ih hparted.1 hparted.2
        exact ⟨x :: above, y, y', hne, List.cons_prefix_cons.2 ⟨rfl, hl⟩, List.cons_prefix_cons.2 ⟨rfl, hl'⟩⟩
      · exact ⟨[], x, x', hx, List.cons_prefix_cons.2 ⟨rfl, List.nil_prefix⟩,
          List.cons_prefix_cons.2 ⟨rfl, List.nil_prefix⟩⟩

/-- That two paths lead into different branches of a group of the pipeline. -/
def Pipeline.Apart (p : Pipeline) (path path' : List String) : Prop :=
  ∃ above st b b', p.find? above = some st ∧ b ∈ st.branches ∧ b' ∈ st.branches ∧ b.name ≠ b'.name ∧
    above ++ [b.name] <+: path ∧ above ++ [b'.name] <+: path'

theorem Pipeline.Apart.symm {p : Pipeline} {path path' : List String} :
    p.Apart path path' → p.Apart path' path := by
  rintro ⟨above, st, b, b', hst, hb, hb', hne, hpath, hpath'⟩
  exact ⟨above, st, b', b, hst, hb', hb, hne.symm, hpath', hpath⟩

/-! ### The units of a story -/

namespace Activity

/-- What has been told of a stage tells of no unit but its own, and of that at most once. -/
theorem Told.units {vars : Bindings} {path : List String} {a : Activity U} {es : List Happening}
    (h : Told vars path a es) :
    es.filterMap Happening.unit? = [] ∨ es.filterMap Happening.unit? = [.ofStage a.stage vars] := by
  rw [← Happening.filterMap_outline (by rintro ⟨⟩ <;> simp [Happening.isDetail, Happening.unit?])]
  have ho := h.outlined
  generalize Happening.outline es = os at ho ⊢
  cases ho with
  | unstarted | gathering | alone => exact .inl rfl
  | working | returned => exact .inr rfl

/-- What stands at the end of a path in the tree of a stage that has ended has ended too. -/
theorem Sound.hasEnded_at? {a n : Activity U} (ha : a.Sound) (he : a.hasEnded = true) {path : List String}
    (hn : a.at? path = some n) : n.hasEnded = true := by
  have hmem : (path, n) ∈ a.nodes [] := (mem_nodes ha.distinct).2 ⟨path, rfl, hn⟩
  exact ha.hasEnded_of_mem_nodes he hmem

end Activity

namespace Run

variable {s : Setting W U} {r : Run W U} {p : Pipeline} {w : W} {path path' : List String} {n n' : Activity U}

theorem count_submitted (r : Run W U) (path : List String) :
    r.submitted.count path = ((r.story path).filterMap Happening.unit?).length := by
  unfold submitted story Entry.storyAt
  induction r.trace with
  | nil => rfl
  | cons e trace ih =>
    by_cases hpath : e.path = path <;> cases hwhat : e.what <;>
      simp_all [List.filterMap_cons, Entry.submitted?, Happening.unit?]

/-- What is submitted is the unit of the stage that it is submitted for. -/
theorem Tells.unit_eq {vars : Bindings} (ht : r.Tells vars) (hs : r.Sound p) (hp : p.Proper) {e : Entry}
    (he : e ∈ r.trace) (hne : e.path ≠ []) {unit : UnitOfWork} (hwhat : e.what = .submitted unit) :
    ∃ st, p.find? e.path = some st ∧ unit = .ofStage st vars := by
  have hmem : unit ∈ (r.story e.path).filterMap Happening.unit? :=
    List.mem_filterMap.2 ⟨_, Entry.mem_storyAt.2 ⟨e, he, rfl, rfl⟩, by rw [hwhat]; rfl⟩
  obtain ⟨n, hn⟩ := ht.exists_at? hne fun hnil => by simp [hnil] at hmem
  refine ⟨n.stage, hs.find?_eq hp hn, ?_⟩
  rcases (ht.told hn).units with hu | hu
  · simp [hu] at hmem
  · simpa [hu] using hmem

/-- The run itself submits nothing. -/
theorem path_ne_nil_of_submitted (hp : p.Proper) {moves : List Move} (h : (begin p w).moved s moves = some r)
    {e : Entry} (he : e ∈ r.trace) {unit : UnitOfWork} (hwhat : e.what = .submitted unit) : e.path ≠ [] := by
  obtain ⟨before, after, htrace⟩ := List.append_of_mem he
  obtain ⟨st, hst, _⟩ := guarded_of_moved hp h before e after unit htrace hwhat
  intro hpath
  rw [hpath] at hst
  cases hst

/-- Whatever is submitted in a run is the unit of a stage of the pipeline. -/
theorem exists_stage_of_submitted (hp : p.Proper) {moves : List Move} (h : (begin p w).moved s moves = some r)
    {e : Entry} (he : e ∈ r.trace) {unit : UnitOfWork} (hwhat : e.what = .submitted unit) :
    ∃ st, p.find? e.path = some st ∧ unit = .ofStage st s.vars :=
  (tells_of_moved hp h).unit_eq (sound_of_moved hp h) hp he (path_ne_nil_of_submitted hp h he hwhat) hwhat

/-! ### Stages that have not ended -/

namespace Sound

variable (hs : r.Sound p) (hp : p.Proper)

include hs hp in
/-- Below a stage whose branches have all ended every stage has. -/
theorem hasEnded_below (hn : r.at? path = some n) (hall : ∀ b ∈ n.branches, b.hasEnded = true)
    (hbelow : path <+: path') (hne : path ≠ path') (hn' : r.at? path' = some n') : n'.hasEnded = true := by
  obtain ⟨rest, rfl⟩ := hbelow
  cases rest with
  | nil => simp at hne
  | cons name rest =>
    rw [at?_append (ne_nil_of_at? hn), hn, Option.bind_some, Activity.at?] at hn'
    obtain ⟨b, hb, hrest⟩ := Option.bind_eq_some_iff.1 hn'
    have hmem := List.mem_of_find?_eq_some hb
    have hsound : b.Sound := (hs.sound_of_at? hp hn).branch hmem
    exact hsound.hasEnded_at? (hall b hmem) hrest

include hs hp in
/-- At the top no stage is open but the one at work. -/
theorem named?_eq_present {name : String} {rest : List String} (hn : r.at? (name :: rest) = some n)
    (he : n.hasEnded = false) : ∃ a, r.present = some a ∧ a.stage.name = name ∧ a.at? rest = some n := by
  obtain ⟨a, ha, hrest⟩ := Option.bind_eq_some_iff.1 hn
  obtain ⟨hmem, hname⟩ := (Activity.named?_eq_some (hs.names hp)).1 ha
  rcases List.mem_append.1 hmem with hpast | hpresent
  · obtain ⟨hsound, hended⟩ := hs.past a hpast
    rw [hsound.hasEnded_at? hended hrest] at he
    cases he
  · exact ⟨a, Option.mem_toList.1 hpresent, hname, hrest⟩

include hs hp in
/-- Open stages of which neither is above the other are in different branches of a group. -/
theorem apart (hn : r.at? path = some n) (hn' : r.at? path' = some n') (he : n.hasEnded = false)
    (he' : n'.hasEnded = false) (h : ¬ path <+: path') (h' : ¬ path' <+: path) : p.Apart path path' := by
  obtain ⟨above, name, name', hne, hpath, hpath'⟩ := exists_parting h h'
  have branch {name : String} {path : List String} {n : Activity U} (hn : r.at? path = some n)
      (hpath : above ++ [name] <+: path) (habove : above ≠ []) :
      ∃ a b, r.at? above = some a ∧ b ∈ a.stage.branches ∧ b.name = name := by
    obtain ⟨b, hb⟩ := exists_at?_above (by simp) hpath hn
    rw [at?_append habove] at hb
    obtain ⟨a, ha, hb⟩ := Option.bind_eq_some_iff.1 hb
    obtain ⟨c, hc, _⟩ := Option.bind_eq_some_iff.1 hb
    have hcoherent := (hs.sound_of_at? hp ha).here
    obtain ⟨hmem, hname⟩ := (Activity.named?_eq_some hcoherent.names).1 hc
    exact ⟨a, c.stage, ha, hcoherent.stages_of_mem hmem ▸ List.mem_map_of_mem hmem, hname⟩
  by_cases habove : above = []
  · -- there is only one open stage at the top
    subst habove
    obtain ⟨rest, rfl⟩ := hpath
    obtain ⟨rest', rfl⟩ := hpath'
    obtain ⟨a, ha, hname, _⟩ := hs.named?_eq_present hp hn he
    obtain ⟨a', ha', hname', _⟩ := hs.named?_eq_present hp hn' he'
    obtain rfl := Option.some.inj (ha.symm.trans ha')
    exact absurd (hname.symm.trans hname') hne
  · obtain ⟨a, b, ha, hb, rfl⟩ := branch hn hpath habove
    obtain ⟨a', b', ha', hb', rfl⟩ := branch hn' hpath' habove
    obtain rfl := Option.some.inj (ha.symm.trans ha')
    exact ⟨above, a.stage, b, b', hs.find?_eq hp ha, hb, hb', hne, hpath, hpath'⟩

end Sound

/-! ### What comes before a start or a submission -/

/-- A stage at the top starts when all stages before it are recorded, and went well. -/
theorem top_of_moved (hp : p.Proper) {moves : List Move} (h : (begin p w).moved s moves = some r) :
    Heralded (fun before e => ∀ name, e.path = [name] → e.what = .started →
      ∃ front st rest, p.stages = front ++ st :: rest ∧ st.name = name ∧
        ∀ st ∈ front, ∃ rec ∈ before.filterMap Entry.record?, rec.path = [st.name] ∧ rec.status = .ok) r.trace := by
  refine heralded_of_moved hp (fun before e hpath _ name hname => ?_) ?_ h
  · rw [hpath] at hname
    cases hname
  · intro before r n m x q hr hv hn hq front e rest htrace name hname _
    have hs := sound_of_moved hp hr
    rw [← hq.path_eq (by simp [htrace] : e ∈ q.trace), hname] at hn
    obtain ⟨a, ha, rfl, _⟩ := hs.named?_eq_present hp hn hq.not_hasEnded
    refine ⟨r.past.map Activity.stage, a.stage, r.future, ?_, rfl, fun st hst => ?_⟩
    · rw [← hs.stages, ha]
      simp
    · obtain ⟨b, hb, rfl⟩ := List.mem_map.1 hst
      obtain ⟨ms, lines, error, hph⟩ := Activity.hasEnded_iff.1 (hs.past b hb).2
      have hclear : error = none := Option.eq_none_iff_forall_ne_some.2 fun e he => by
        have hverdict := hs.error b hb e ((Activity.error?_of_phase hph).trans he)
        rw [hv] at hverdict
        cases hverdict
      have hat : r.at? [b.stage.name] = some b := by
        rw [at?, (Activity.named?_eq_some (hs.names hp)).2 ⟨List.mem_append_left _ hb, rfl⟩]
        rfl
      have hrec := (marked_of_moved hp hr).mem_of_record? hs hp hat (Activity.record?_of_phase _ hph)
      subst hclear
      exact ⟨_, ((List.sublist_append_left _ _).filterMap Entry.record?).subset hrec, rfl, rfl⟩

theorem mem_submitted {trace : List Entry} : path ∈ trace.filterMap Entry.submitted? ↔
    ∃ e ∈ trace, e.path = path ∧ ∃ unit, e.what = .submitted unit := by
  rw [List.mem_filterMap]
  refine exists_congr fun e => and_congr_right fun _ => ?_
  cases hwhat : e.what <;> simp [Entry.submitted?, hwhat]

/-- The paths of the units that are in flight after some entries. -/
def aloft (trace : List Entry) : List (List String) :=
  (trace.filterMap Entry.submitted?).filter fun path => !(trace.filterMap Entry.returned?).contains path

theorem mem_aloft {trace : List Entry} :
    path ∈ aloft trace ↔ path ∈ trace.filterMap Entry.submitted? ∧ path ∉ trace.filterMap Entry.returned? := by
  simp [aloft]

/-- A unit in flight is at work. -/
theorem exists_working (hs : r.Sound p) (hp : p.Proper) (hb : r.Balanced) (hsub : path ∈ r.submitted)
    (hret : path ∉ r.returned) : ∃ n u, r.at? path = some n ∧ n.phase = .working u := by
  have hflight : path ∈ r.inFlight := (List.mem_append.1 (hb.mem_iff.2 hsub)).resolve_right hret
  obtain ⟨⟨path', n⟩, hn, hwork⟩ := List.mem_flatMap.1 hflight
  rw [Activity.atWork] at hwork
  split at hwork
  · obtain rfl := List.mem_singleton.1 hwork
    exact ⟨n, _, (hs.mem_nodes hp).1 hn, ‹_›⟩
  · cases hwork

/-- When a unit is submitted it is apart from all that are in flight. -/
theorem apart_of_submitted (hp : p.Proper) {moves : List Move} (h : (begin p w).moved s moves = some r) :
    Heralded (fun before e => ∀ unit, e.what = .submitted unit → ∀ path ∈ aloft before, path ≠ e.path →
      p.Apart path e.path) r.trace := by
  refine heralded_of_moved hp (fun _ e _ hnot unit hwhat => absurd hwhat (hnot unit)) ?_ h
  intro before r n m x q hr hv hn hq front e rest htrace unit hwhat path hpath hne
  have hs := sound_of_moved hp hr
  have he : e ∈ q.trace := by simp [htrace]
  rw [hq.path_eq he] at hne ⊢
  obtain ⟨_, hclear⟩ := hq.clear_of_submitted (hs.sound_of_at? hp hn).here (List.mem_map.2 ⟨e, he, hwhat⟩)
  obtain ⟨n', u, hn', hwork⟩ : ∃ n' u, r.at? path = some n' ∧ n'.phase = .working u := by
    rw [mem_aloft, List.filterMap_append, List.filterMap_append, List.mem_append, List.mem_append] at hpath
    obtain ⟨hsub, hret⟩ := hpath
    refine exists_working hs hp (balanced_of_moved hp hr) (hsub.resolve_right fun hfront => hne ?_)
      fun hmem => hret (.inl hmem)
    -- an act submits no other unit
    obtain ⟨e', he', rfl, _⟩ := mem_submitted.1 hfront
    exact hq.path_eq (by simp [htrace, he'])
  have hended : n'.hasEnded = false := by simp [Activity.hasEnded, hwork]
  refine hs.apart hp hn' hn hended hq.not_hasEnded (fun habove => ?_) fun hbelow => ?_
  · -- a stage whose unit is at work has no branches at work
    have hcoherent := (hs.sound_of_at? hp hn').here
    have hall : ∀ b ∈ n'.branches, b.hasEnded = true := fun b hb => hcoherent.hasEnded_of_mem (by simp [hwork]) hb
    have hbelow := hs.hasEnded_below hp hn' hall habove hne hn
    rw [hq.not_hasEnded] at hbelow
    cases hbelow
  · have hbelow := hs.hasEnded_below hp hn (fun b hb => (hclear b hb).1) hbelow hne.symm hn'
    rw [hended] at hbelow
    cases hbelow

/-- A unit in flight after one more entry was in flight before, or it is submitted now. -/
theorem aloft_concat {trace : List Entry} {e : Entry} (h : path ∈ aloft (trace ++ [e])) :
    path ∈ aloft trace ∨ path = e.path ∧ ∃ unit, e.what = .submitted unit := by
  rw [mem_aloft, List.filterMap_append, List.filterMap_append, List.mem_append, List.mem_append] at h
  obtain ⟨hsub | hsub, hret⟩ := h
  · exact .inl (mem_aloft.2 ⟨hsub, fun hmem => hret (.inl hmem)⟩)
  · obtain ⟨e', he', rfl, hwhat⟩ := mem_submitted.1 hsub
    obtain rfl := List.mem_singleton.1 he'
    exact .inr ⟨rfl, hwhat⟩

/-- If every unit is apart, when it is submitted, from all that are in flight, those in flight are apart. -/
theorem apart_of_heralded {trace : List Entry}
    (h : Heralded (fun before e => ∀ unit, e.what = .submitted unit → ∀ path ∈ aloft before, path ≠ e.path →
      p.Apart path e.path) trace) (hpath : path ∈ aloft trace) (hpath' : path' ∈ aloft trace)
    (hne : path ≠ path') : p.Apart path path' := by
  induction trace using List.reverseRecOn with
  | nil => simp [aloft] at hpath
  | append_singleton trace e ih =>
    have hlast := h trace e [] rfl
    rcases aloft_concat hpath with hold | ⟨rfl, unit, hwhat⟩
    · rcases aloft_concat hpath' with hold' | ⟨rfl, unit, hwhat⟩
      · exact ih h.of_append hold hold'
      · exact hlast unit hwhat path hold hne
    · rcases aloft_concat hpath' with hold' | ⟨rfl, _⟩
      · exact (hlast unit hwhat path' hold' hne.symm).symm
      · exact absurd rfl hne

/-! ### All together -/

/-- How the units of a run of a pipeline are submitted. -/
structure InTurn (r : Run W U) (p : Pipeline) (vars : Bindings) : Prop where
  once : r.submitted.Nodup
  units : ∀ e ∈ r.trace, ∀ unit, e.what = .submitted unit → ∃ st, p.find? e.path = some st ∧
    unit = { name := st.name, steps := st.steps, agent := st.agent.getD .none, env := vars }
  /-- A stage at the top starts when all stages before it are recorded, and went well. -/
  top : ∀ before e after name, r.trace = before ++ e :: after → e.path = [name] → e.what = .started →
    ∃ front st rest, p.stages = front ++ st :: rest ∧ st.name = name ∧
      ∀ st ∈ front, ∃ rec ∈ before.filterMap Entry.record?, rec.path = [st.name] ∧ rec.status = .ok
  guarded : r.Guarded p
  /-- At every moment units in flight are in different branches of a group. -/
  apart : ∀ before after, r.trace = before ++ after → ∀ path ∈ aloft before, ∀ path' ∈ aloft before,
    path ≠ path' → p.Apart path path'

/-- The units of a run are submitted in turn, whatever its runner does, in whatever order its stages go on,
and whenever it is cancelled. A runner that keeps the units it is asked to start keeps those, and no others. -/
theorem in_turn_of_moved (hv : p.violation? = none) {moves : List Move}
    (h : (begin p w).moved s moves = some r) :
    r.InTurn p s.vars ∧ (begin p (w, [])).moved s.keeping moves = some r.keeping := by
  have hp := Pipeline.proper_of_violation?_eq_none hv
  have hs := sound_of_moved hp h
  have ht := tells_of_moved hp h
  refine ⟨?_, handed_of_moved s p w h⟩
  refine
    { once := List.nodup_iff_count_le_one.2 fun path => ?_
      units := fun e he unit hwhat => exists_stage_of_submitted hp h he hwhat
      top := fun before e after name htrace => top_of_moved hp h before e after htrace name
      guarded := guarded_of_moved hp h
      apart := fun before after htrace path hpath path' hpath' hdiff => ?_ }
  · by_cases hpath : path = []
    · have hnot : path ∉ r.submitted := fun hmem => by
        obtain ⟨e, he, hepath, unit, hwhat⟩ := mem_submitted.1 hmem
        exact path_ne_nil_of_submitted hp h he hwhat (hepath.trans hpath)
      rw [List.count_eq_zero.2 hnot]
      exact Nat.zero_le 1
    · rw [count_submitted]
      cases hn : r.at? path with
      | none =>
        obtain ⟨name, rest, rfl⟩ := List.exists_cons_of_ne_nil hpath
        simp [ht.silent_of_at? hn]
      | some n => rcases (ht.told hn).units with hu | hu <;> simp [hu]
  · have hheralded := apart_of_submitted hp h
    rw [htrace] at hheralded
    exact apart_of_heralded hheralded.of_append hpath hpath' hdiff

theorem in_turn_of_moved_fork :
    ∃ r, (begin (.fork false) {}).moved forkSetting forkMoves = some r ∧ r.InTurn (.fork false) .empty ∧
      (begin (.fork false) ({}, [])).moved forkSetting.keeping forkMoves = some r.keeping := by
  have hover : (((begin (.fork false) {}).moved forkSetting forkMoves).map fun r => r.verdict.isSome) =
      some true := by decide
  obtain ⟨r, hr, _⟩ := Option.map_eq_some_iff.1 hover
  exact ⟨r, hr, in_turn_of_moved (by decide) hr⟩

end Run

end StageTree
