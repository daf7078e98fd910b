import StageTree.Proofs.Activity.Marks

/-! The story of a stage: what happened to it, in order, as its entries in the trace tell it. It starts,
enters its group and joins the branches, submits its unit, and ends. `Told` says what may have been told
of a stage that stands as it does; every step of a tree goes on with the story of one stage and leaves
those of the others as they are. -/

namespace StageTree

variable {W U : Type}

namespace Entry

def storyAt (path : List String) (trace : List Entry) : List Happening :=
  (trace.filter (·.path == path)).map what

variable {path : List String} {trace trace' : List Entry}

theorem storyAt_eq_nil (h : ∀ e ∈ trace, e.path ≠ path) : storyAt path trace = [] := by
  rw [storyAt, List.filter_eq_nil_iff.2 fun e he => by simpa using h e he, List.map_nil]

theorem storyAt_append : storyAt path (trace ++ trace') = storyAt path trace ++ storyAt path trace' := by
  simp [storyAt]

/-- Entries about the stage go on with its story. -/
theorem storyAt_append_of_eq (h : ∀ e ∈ trace', e.path = path) :
    storyAt path (trace ++ trace') = storyAt path trace ++ trace'.map what := by
  rw [storyAt_append]
  refine congrArg _ ?_
  rw [storyAt, List.filter_eq_self.2 fun e he => by simpa using h e he]

/-- Entries about others do not change it. -/
theorem storyAt_append_of_ne (h : ∀ e ∈ trace', e.path ≠ path) :
    storyAt path (trace ++ trace') = storyAt path trace := by
  rw [storyAt_append, storyAt_eq_nil h, List.append_nil]

theorem mem_storyAt {what : Happening} :
    what ∈ storyAt path trace ↔ ∃ e ∈ trace, e.path = path ∧ e.what = what := by
  simp [storyAt, and_assoc]

end Entry

def Happening.joined? : Happening → Option (String × Option RunError)
  | .joined branch error => some (branch, error)
  | _ => none

def Happening.record? : Happening → Option StageRecord
  | .ended record => some record
  | _ => none

def Happening.result? : Happening → Option UnitResult
  | .returned result => some result
  | _ => none

namespace Happening

/-- Whether it is of the details of a stage: what its group joins, and what is noted of its unit. -/
def isDetail : Happening → Bool
  | fanned _ | joined _ _ | cancelling _ | noted _ => true
  | _ => false

def outline (es : List Happening) : List Happening := es.filter fun what => !what.isDetail

theorem outline_append (es es' : List Happening) : outline (es ++ es') = outline es ++ outline es' :=
  List.filter_append ..

theorem outline_noted (notes : List Note) : outline (notes.map noted) = [] := by
  simp [outline, isDetail]

/-- What is picked out of a story is found in its outline, unless it is a detail. -/
theorem filterMap_outline {α : Type} {pick : Happening → Option α}
    (hpick : ∀ what, what.isDetail = true → pick what = none) (es : List Happening) :
    (outline es).filterMap pick = es.filterMap pick := by
  rw [outline, List.filterMap_filter]
  refine List.filterMap_congr fun what _ => ?_
  cases hd : what.isDetail with
  | true => exact (hpick what hd).symm
  | false => rfl

end Happening

/-- What a group that fails fast, or does not, tells of the branches that it joined, in the order in which it
did. -/
inductive Gathered (failFast : Bool) : List (Report Results) → List Happening → Prop
  | nil : Gathered failFast [] []
  | joined {rs : List (Report Results)} {es : List Happening} (r : Report Results)
      (h : Gathered failFast rs es) :
      Gathered failFast (rs ++ [r]) (es ++ [.joined r.name r.error])
  | cancelling {rs : List (Report Results)} {es : List Happening} (r : Report Results)
      (h : Gathered failFast rs es) (hc : failFast = true) (hr : r.error.any RunError.isFailure = true) :
      Gathered failFast (rs ++ [r]) (es ++ [.joined r.name r.error, .cancelling r.name])

namespace Gathered

variable {failFast : Bool} {rs : List (Report Results)} {es : List Happening}

theorem joins (h : Gathered failFast rs es) :
    es.filterMap Happening.joined? = rs.map fun r => (r.name, r.error) := by
  induction h with
  | nil => rfl
  | joined r h ih => simp [ih, Happening.joined?]
  | cancelling r h hc hr ih => simp [ih, Happening.joined?]

/-- All that a group tells are details. -/
theorem outline (h : Gathered failFast rs es) : Happening.outline es = [] := by
  induction h with
  | nil => rfl
  | joined r h ih | cancelling r h hc hr ih =>
    rw [Happening.outline_append, ih]
    rfl

end Gathered

namespace Activity

/-- What is told of a stage before its unit is submitted, its start apart: nothing if it has no group, and
else that all branches of the group were joined without an error. -/
inductive Led (a : Activity U) : List Happening → Prop
  | alone (hf : a.fan = none) (hg : a.stage.parallel = none) : Led a []
  | grouped {f : Fan} {es : List Happening} (hf : a.fan = some f) (he : f.join.error = none)
      (hg : Gathered a.stage.failsFast f.join.reports es) : Led a (.fanned a.stage.branches.length :: es)

/-- What may have been told of a stage at a path that stands as it does, in a run with these variables. -/
inductive Told (vars : Bindings) (path : List String) (a : Activity U) : List Happening → Prop
  | unstarted (hp : a.phase = .waiting) : Told vars path a []
  | refused {ms : Nat} {e : RunError} (hp : a.phase = .ended ms none (some e)) (hf : a.fan = none)
      (hc : e.isCancellation = true) :
      Told vars path a [.started, .ended (.finish path (.ofMillis a.since) (.ofMillis ms) (some e))]
  | gathering {f : Fan} {es : List Happening} (hp : a.phase = .fanned) (hf : a.fan = some f)
      (hg : Gathered a.stage.failsFast f.join.reports es) :
      Told vars path a (.started :: .fanned a.stage.branches.length :: es)
  | settled {f : Fan} {es : List Happening} {ms : Nat} (hp : a.phase = .ended ms none f.join.error)
      (hf : a.fan = some f) (hs : f.join.error = none → a.stage.hasSteps = false)
      (hg : Gathered a.stage.failsFast f.join.reports es) :
      Told vars path a (.started :: .fanned a.stage.branches.length :: es ++
        [.ended (.finish path (.ofMillis a.since) (.ofMillis ms) f.join.error)])
  | working {u : U} {es : List Happening} (notes : List Note) (hp : a.phase = .working u) (hl : Led a es) :
      Told vars path a (.started :: es ++ .submitted (.ofStage a.stage vars) :: notes.map .noted)
  | returned {result : UnitResult} {es : List Happening} {ms : Nat} (notes : List Note)
      (hp : a.phase = .ended ms result.toOption result.error?) (hl : Led a es) :
      Told vars path a (.started :: es ++ .submitted (.ofStage a.stage vars) :: notes.map .noted ++
        [.returned result, .ended (.finish path (.ofMillis a.since) (.ofMillis ms) result.error?)])

variable {vars : Bindings} {path : List String} {a b : Activity U} {es : List Happening}

/-- A group with the same joins as another one, of which it is known that there is one. -/
theorem exists_fan_of_join (hf : b.fan.map Fan.join = a.fan.map Fan.join) {f : Fan} (e : a.fan = some f) :
    ∃ g, b.fan = some g ∧ g.join = f.join := by
  rw [e, Option.map_some] at hf
  exact Option.map_eq_some_iff.1 hf

theorem fan_eq_none_of_join (hf : b.fan.map Fan.join = a.fan.map Fan.join) (e : a.fan = none) :
    b.fan = none := by
  rw [e, Option.map_none] at hf
  exact Option.map_eq_none_iff.1 hf

theorem Led.congr (h : Led a es) (hs : b.stage = a.stage) (hf : b.fan.map Fan.join = a.fan.map Fan.join) :
    Led b es := by
  cases h with
  | alone e hg => exact .alone (fan_eq_none_of_join hf e) (hs ▸ hg)
  | grouped e he hg =>
    obtain ⟨g, hg', ej⟩ := exists_fan_of_join hf e
    rw [← hs] at hg ⊢
    exact .grouped hg' (ej ▸ he) (ej ▸ hg)

/-- A story depends on no more of a stage than its phase and the branches that it joined. -/
theorem Told.congr (h : Told vars path a es) (hs : b.stage = a.stage) (hi : b.since = a.since)
    (hp : b.phase = a.phase) (hf : b.fan.map Fan.join = a.fan.map Fan.join) : Told vars path b es := by
  cases h with
  | unstarted e => exact .unstarted (hp.trans e)
  | refused e hn hc =>
    rw [← hi]
    exact .refused (hp.trans e) (fan_eq_none_of_join hf hn) hc
  | gathering e hfan hg =>
    obtain ⟨g, hg', ej⟩ := exists_fan_of_join hf hfan
    rw [← hs] at hg ⊢
    exact .gathering (hp.trans e) hg' (ej ▸ hg)
  | settled e hfan hn hg =>
    obtain ⟨g, hg', ej⟩ := exists_fan_of_join hf hfan
    rw [← ej] at e hn hg
    rw [← hs] at hg
    rw [← hs, ← hi, ← ej]
    exact .settled (hp.trans e) hg' (hs ▸ hn) hg
  | working notes e hl =>
    rw [← hs]
    exact .working notes (hp.trans e) (hl.congr hs hf)
  | returned notes e hl =>
    rw [← hs, ← hi]
    exact .returned notes (hp.trans e) (hl.congr hs hf)

theorem Told.cancel (h : Told vars path a es) (reason : String) : Told vars path (a.cancel reason) es := by
  refine h.congr (cancel_stage a reason) (cancel_since a reason) (cancel_phase a reason) ?_
  rcases a.cancel_cases reason with e | ⟨join, hp, hf, e⟩
  · rw [e]
  · rw [e, hf]
    rfl

/-- Nothing is told of a stage that has not started. -/
theorem Told.eq_nil (h : Told vars path a es) (hp : a.phase = .waiting) : es = [] := by
  cases h with
  | unstarted => rfl
  | refused e | gathering e | settled e | working _ e | returned _ e => simp [hp] at e

/-! ### The outline of a story -/

/-- The outline of the story of a stage at a path that stands as it does. -/
inductive Outlined (vars : Bindings) (path : List String) (a : Activity U) : List Happening → Prop
  | unstarted (hp : a.phase = .waiting) : Outlined vars path a []
  | gathering (hp : a.phase = .fanned) : Outlined vars path a [.started]
  | working {u : U} (hp : a.phase = .working u) :
      Outlined vars path a [.started, .submitted (.ofStage a.stage vars)]
  | alone {ms : Nat} {error : Option RunError} (hp : a.phase = .ended ms none error) :
      Outlined vars path a [.started, .ended (.finish path (.ofMillis a.since) (.ofMillis ms) error)]
  | returned {result : UnitResult} {ms : Nat} (hp : a.phase = .ended ms result.toOption result.error?) :
      Outlined vars path a [.started, .submitted (.ofStage a.stage vars), .returned result,
        .ended (.finish path (.ofMillis a.since) (.ofMillis ms) result.error?)]

theorem Led.outline (h : Led a es) : Happening.outline es = [] := by
  cases h with
  | alone => rfl
  | grouped _ _ hg => exact hg.outline

theorem Told.outlined (h : Told vars path a es) : Outlined vars path a (Happening.outline es) := by
  cases h with
  | unstarted hp => exact .unstarted hp
  | refused hp => exact .alone hp
  | @gathering f es hp _ hg =>
    show Outlined vars path a (.started :: Happening.outline es)
    rw [hg.outline]
    exact .gathering hp
  | @settled f es ms hp _ _ hg =>
    show Outlined vars path a (.started :: Happening.outline (es ++ _))
    rw [Happening.outline_append, hg.outline]
    exact .alone hp
  | @working u es notes hp hl =>
    show Outlined vars path a (.started :: Happening.outline (es ++ _))
    rw [Happening.outline_append, hl.outline]
    show Outlined vars path a (.started :: .submitted _ :: Happening.outline _)
    rw [Happening.outline_noted]
    exact .working hp
  | @returned result es ms notes hp hl =>
    show Outlined vars path a (.started :: Happening.outline (es ++ (.submitted _ :: notes.map .noted) ++ _))
    rw [Happening.outline_append, Happening.outline_append, hl.outline]
    show Outlined vars path a (.started :: .submitted _ :: (Happening.outline _ ++ _))
    rw [Happening.outline_noted]
    exact .returned hp

/-! ### An act goes on with the story -/

section Acts

variable {s : Setting W U} {m : Moment} {w : W} {x : Act} {p : Played W U}

theorem Taken.path_eq {since : Nat} {t : Turn W U} {phase : Phase U} {w' : W} {trace : List Entry}
    (h : Taken m since t phase w' trace) {e : Entry} (he : e ∈ trace) : e.path = m.path := by
  cases h with
  | waits w notes u =>
    obtain ⟨_, _, rfl⟩ := List.mem_map.1 he
    rfl
  | returns w notes r =>
    rcases List.mem_append.1 he with he | he
    · obtain ⟨_, _, rfl⟩ := List.mem_map.1 he
      rfl
    · rcases List.mem_pair.1 he with rfl | rfl <;> rfl

theorem Onward.path_eq {stage : Stage} {since : Nat} {phase : Phase U} {w' : W} {trace : List Entry}
    (h : Onward s m stage since w phase w' trace) {e : Entry} (he : e ∈ trace) : e.path = m.path := by
  cases h with
  | idle _ => exact List.mem_singleton.1 he ▸ rfl
  | unit _ ht =>
    rcases List.mem_cons.1 he with rfl | he
    · rfl
    · exact ht.path_eq he

theorem path_eq_of_joiningEntries {f : Fan} {r : Report Results} {e : Entry}
    (he : e ∈ a.joiningEntries f r m) : e.path = m.path := by
  rw [joiningEntries] at he
  split at he
  · rcases List.mem_pair.1 he with rfl | rfl <;> rfl
  · exact List.mem_singleton.1 he ▸ rfl

/-- Whatever an act tells, it tells of the stage that acts. -/
theorem Acted.path_eq (h : Acted s m w a x p) {e : Entry} (he : e ∈ p.trace) : e.path = m.path := by
  cases h with
  | refused | fanned => rcases List.mem_pair.1 he with rfl | rfl <;> rfl
  | begun hp hs hg ho =>
    rcases List.mem_cons.1 he with rfl | he
    · rfl
    · exact ho.path_eq he
  | looked hp ht => exact ht.path_eq he
  | joined => exact path_eq_of_joiningEntries he
  | failed =>
    rcases List.mem_append.1 he with he | he
    · exact path_eq_of_joiningEntries he
    · exact List.mem_singleton.1 he ▸ rfl
  | gathered hp hf hb hph hj hl hr ho =>
    rcases List.mem_append.1 he with he | he
    · exact path_eq_of_joiningEntries he
    · exact ho.path_eq he

/-- The story goes on from a unit that is looked at. -/
theorem Taken.told {t : Turn W U} {phase : Phase U} {w' : W} {trace : List Entry} {since : Nat}
    (h : Taken m since t phase w' trace) (hl : Led a es) (hi : a.since = since) (hp : a.phase = phase)
    (notes : List Note) :
    Told vars m.path a (.started :: es ++ .submitted (.ofStage a.stage vars) :: notes.map .noted ++
      trace.map Entry.what) := by
  cases h with
  | waits w more u =>
    have h : Told vars m.path a _ := .working (notes ++ more) hp hl
    simpa [Function.comp_def, Moment.entry] using h
  | returns w more r =>
    have h : Told vars m.path a _ := .returned (notes ++ more) hp hl
    simpa [Function.comp_def, Moment.entry, Moment.ending, hi] using h

/-- The story goes on from a group that is over, or from the start of a stage without one. -/
theorem Onward.told {phase : Phase U} {w' : W} {trace : List Entry} {since : Nat} {stage : Stage}
    (h : Onward s m stage since w phase w' trace) (hl : Led a es) (hs : a.stage = stage)
    (hi : a.since = since) (hp : a.phase = phase) (hg : a.fan = none → stage.hasSteps = true) :
    Told s.vars m.path a (.started :: es ++ trace.map Entry.what) := by
  subst hs hi
  cases h with
  | idle hn =>
    cases hl with
    | alone hf _ =>
      rw [hg hf] at hn
      cases hn
    | @grouped f es hf he hgs =>
      have h : Told s.vars m.path a _ := .settled (he.symm ▸ hp) hf (fun _ => hn) hgs
      rw [he] at h
      simpa [Moment.ending, Moment.entry] using h
  | unit hn ht =>
    have h : Told s.vars m.path a _ := ht.told hl rfl hp []
    simpa [Moment.entry] using h

theorem gathered_joiningEntries {f : Fan} {r : Report Results}
    (hg : Gathered a.stage.failsFast f.join.reports es) :
    Gathered a.stage.failsFast (f.joining a.stage.failsFast r).join.reports
      (es ++ (a.joiningEntries f r m).map Entry.what) := by
  have e : (f.joining a.stage.failsFast r).join.reports = f.join.reports ++ [r] := rfl
  rw [e, joiningEntries]
  split
  · rename_i hc
    obtain ⟨hff, _, hr⟩ := Join.cancels_iff.1 hc
    exact .cancelling r hg hff hr
  · exact .joined r hg

/-- An act goes on with the story of the stage that acts. -/
theorem Acted.told (h : Acted s m w a x p) (ha : a.Coherent) (ht : Told s.vars m.path a es) :
    Told s.vars m.path p.activity (es ++ p.trace.map Entry.what) := by
  cases h with
  | refused hp hs =>
    rw [ht.eq_nil hp]
    exact .refused rfl (ha.waiting hp) rfl
  | @fanned stages hp hs hg hne =>
    rw [ht.eq_nil hp, ← Stage.branches_of_parallel hg]
    exact .gathering rfl rfl .nil
  | @begun phase w' trace hp hs hg ho =>
    rw [ht.eq_nil hp]
    have hl : Led { a with since := m.now, phase := phase } [] := .alone (ha.waiting hp) hg
    refine ho.told hl rfl rfl rfl fun _ => ?_
    rcases ha.proper.content with h | h
    · exact h
    · exact absurd hg h
  | @looked u phase w' trace hp hk =>
    cases ht with
    | working notes e hl => exact hk.told (hl.congr (b := { a with phase := phase }) rfl rfl) rfl rfl notes
    | unstarted e | refused e | gathering e | settled e | returned _ e => simp [hp] at e
  | @joined i ms f b lines error hp hf hb he hj hl =>
    cases ht with
    | gathering _ hf' hg =>
      obtain rfl := Option.some.inj (hf.symm.trans hf')
      exact .gathering hp rfl (gathered_joiningEntries hg)
    | unstarted e | refused e | settled e | working _ e | returned _ e => simp [hp] at e
  | @failed i ms f b lines error e hp hf hb he hj hl hr =>
    cases ht with
    | gathering _ hf' hg =>
      obtain rfl := Option.some.inj (hf.symm.trans hf')
      have hg' := gathered_joiningEntries (a := a) (m := m) (r := b.report i error) hg
      have h : Told s.vars m.path
          { a with
            phase := .ended m.now none (some e)
            fan := some (f.joining a.stage.failsFast (b.report i error))
            branches := a.joiningBranches f (b.report i error) } _ :=
        .settled (by rw [hr]) rfl (by simp [hr]) hg'
      rw [hr] at h
      simpa [Moment.ending, Moment.entry] using h
    | unstarted e | refused e | settled e | working _ e | returned _ e => simp [hp] at e
  | @gathered i ms f b lines error phase w' trace hp hf hb he hj hl hr ho =>
    cases ht with
    | gathering _ hf' hg =>
      obtain rfl := Option.some.inj (hf.symm.trans hf')
      have hled : Led { a with
          phase := phase
          fan := some (f.joining a.stage.failsFast (b.report i error))
          branches := a.joiningBranches f (b.report i error) } _ :=
        .grouped rfl hr (gathered_joiningEntries (a := a) (m := m) (r := b.report i error) hg)
      have h := ho.told hled rfl rfl rfl (by simp)
      simpa using h
    | unstarted e | refused e | settled e | working _ e | returned _ e => simp [hp] at e

end Acts

/-! ### A step goes on with one story -/

section Steps

variable {s : Setting W U} {m : Moment} {w : W} {x : Act} {p : Played W U} {trace : List Entry}

/-- What has been told of a tree at a path: of each stage in it what fits it, and of no other stage
anything. -/
def Tells (vars : Bindings) (trace : List Entry) (path : List String) (a : Activity U) : Prop :=
  ∀ rest, (a.at? rest).elim (Entry.storyAt (path ++ rest) trace = []) fun n =>
    n.Told vars (path ++ rest) (Entry.storyAt (path ++ rest) trace)

namespace Tells

theorem told (h : Tells vars trace path a) (rest : List String) {n : Activity U} (hn : a.at? rest = some n) :
    n.Told vars (path ++ rest) (Entry.storyAt (path ++ rest) trace) := by
  have h := h rest
  rwa [hn] at h

theorem silent (h : Tells vars trace path a) (rest : List String) (hn : a.at? rest = none) :
    Entry.storyAt (path ++ rest) trace = [] := by
  have h := h rest
  rwa [hn] at h

/-- Nothing is told of a stage that has not started and of those below it. -/
theorem ofStage {st : Stage} (h : ∀ rest, Entry.storyAt (path ++ rest) trace = []) :
    Tells vars trace path (.ofStage st : Activity U) := by
  intro rest
  cases rest with
  | nil =>
    rw [h]
    exact .unstarted rfl
  | cons name rest => exact h _

theorem cancel (h : Tells vars trace path a) (reason : String) : Tells vars trace path (a.cancel reason) := by
  intro rest
  have h := h rest
  rcases a.at?_cancel reason rest with e | e <;> rw [e]
  · exact h
  · cases hn : a.at? rest with
    | none => rwa [hn] at h
    | some n =>
      rw [hn] at h
      exact Told.cancel h reason

theorem branch (h : Tells vars trace path a) (names : (a.branches.map (·.stage.name)).Nodup)
    (hb : b ∈ a.branches) : Tells vars trace (path ++ [b.stage.name]) b := by
  intro rest
  have h := h (b.stage.name :: rest)
  rw [at?_cons_of_mem names hb] at h
  simpa using h

/-- Entries that lie elsewhere change no story. -/
theorem append_of_ne (h : Tells vars trace path a) {more : List Entry}
    (hm : ∀ e ∈ more, ∀ rest, e.path ≠ path ++ rest) : Tells vars (trace ++ more) path a := by
  intro rest
  rw [Entry.storyAt_append_of_ne fun e he => hm e he rest]
  exact h rest

end Tells

/-- Whatever a step tells, it tells of one stage, which like those above it has not ended before. -/
theorem Stepped.exists_path (h : Stepped s x a m w p) (ha : a.Sound) :
    ∃ rest, (∀ e ∈ p.trace, e.path = m.path ++ rest) ∧
      ∀ front, front <+: rest → ∃ n, a.at? front = some n ∧ n.hasEnded = false := by
  induction h with
  | here h =>
    refine ⟨[], fun e he => by simpa using h.path_eq he, fun front hf => ?_⟩
    rw [List.prefix_nil.1 hf]
    exact ⟨_, rfl, h.not_hasEnded⟩
  | @branch a b m w p f i hp hf hb h ih =>
    have hm := List.mem_of_getElem? hb
    obtain ⟨rest, hpath, hopen⟩ := ih (ha.branch hm)
    refine ⟨b.stage.name :: rest, fun e he => by simpa [Moment.below] using hpath e he, fun front hf => ?_⟩
    cases front with
    | nil => exact ⟨a, rfl, by simp [hasEnded, hp]⟩
    | cons name front =>
      obtain ⟨rfl, hfront⟩ := List.cons_prefix_cons.1 hf
      rw [at?_cons_of_mem ha.here.names hm]
      exact hopen front hfront

/-- After an act the stories below the stage that acts are as they were. -/
theorem Acted.tells_below (h : Acted s m w a x p) (ha : a.Coherent) (ht : Tells vars trace path a)
    {name : String} {rest : List String} :
    (p.activity.at? (name :: rest)).elim (Entry.storyAt (path ++ name :: rest) trace = []) fun n =>
      n.Told vars (path ++ name :: rest) (Entry.storyAt (path ++ name :: rest) trace) := by
  have joining {f : Fan} {r : Report Results} {c : Activity U} (e : c.branches = a.joiningBranches f r) :
      (c.at? (name :: rest)).elim (Entry.storyAt (path ++ name :: rest) trace = []) fun n =>
        n.Told vars (path ++ name :: rest) (Entry.storyAt (path ++ name :: rest) trace) := by
    rw [at?, e]
    rcases a.joiningBranches_eq f r with e | ⟨reason, e⟩ <;> rw [e]
    · exact ht (name :: rest)
    · rw [named?_map_cancel]
      cases hn : named? name a.branches with
      | none => exact ht.silent (name :: rest) (by rw [at?, hn]; rfl)
      | some b =>
        obtain ⟨hm, rfl⟩ := (named?_eq_some ha.names).1 hn
        have hb := ((ht.branch ha.names hm).cancel reason) rest
        simpa using hb
  cases h with
  | refused | begun | looked => exact ht (name :: rest)
  | @fanned stages hp hs hg hne =>
    -- a stage that enters its group had nothing below it
    have hsilent (rest : List String) : Entry.storyAt (path ++ [name] ++ rest) trace = [] := by
      rw [List.append_assoc]
      refine ht.silent _ ?_
      rw [List.singleton_append, at?, ha.single (ha.waiting hp)]
      rfl
    rw [at?]
    cases hn : named? name (stages.map (.ofStage (U := U))) with
    | none => simpa using hsilent rest
    | some b =>
      obtain ⟨st, _, rfl⟩ := List.mem_map.1 (List.mem_of_find?_eq_some hn)
      have hst : Tells vars trace (path ++ [name]) (.ofStage st : Activity U) := .ofStage hsilent
      simpa using hst rest
  | joined | failed | gathered => exact joining rfl

/-- A step goes on with the story of the stage that acts, and leaves those of the others as they are. -/
theorem Stepped.tells (h : Stepped s x a m w p) (ha : a.Sound) (ht : Tells s.vars trace m.path a) :
    Tells s.vars (trace ++ p.trace) m.path p.activity := by
  induction h with
  | @here a m w p h =>
    intro rest
    cases rest with
    | nil =>
      have ht := ht.told [] rfl
      rw [List.append_nil] at ht ⊢
      rw [Entry.storyAt_append_of_eq fun e he => h.path_eq he]
      exact h.told ha.here ht
    | cons name rest =>
      rw [Entry.storyAt_append_of_ne fun e he => by simp [h.path_eq he]]
      exact h.tells_below ha.here ht
  | @branch a b m w p f i hp hf hb h ih =>
    have hm := List.mem_of_getElem? hb
    obtain ⟨front, hpath, _⟩ := h.exists_path (ha.branch hm)
    have hpath (e : Entry) (he : e ∈ p.trace) : e.path = m.path ++ b.stage.name :: front := by
      simpa [Moment.below] using hpath e he
    intro rest
    cases rest with
    | nil =>
      rw [Entry.storyAt_append_of_ne fun e he => by simp [hpath e he]]
      exact (ht.told [] rfl).congr rfl rfl rfl rfl
    | cons name rest =>
      by_cases hn : b.stage.name = name
      · subst hn
        have hnames := (ha.here.set hb h.not_hasEnded h.stage_eq).names
        have hmem : p.activity ∈ a.branches.set i p.activity :=
          List.mem_set (List.getElem?_eq_some_iff.1 hb).1 _
        have hat := at?_cons_of_mem (a := { a with branches := a.branches.set i p.activity }) hnames hmem rest
        rw [h.stage_eq] at hat
        rw [hat]
        simpa [Moment.below] using ih (ha.branch hm) (ht.branch ha.here.names hm) rest
      · have hat : Activity.at? (name :: rest) { a with branches := a.branches.set i p.activity } =
            a.at? (name :: rest) := by
          rw [at?, at?, named?_set_of_ne hb h.stage_eq hn]
        rw [hat, Entry.storyAt_append_of_ne fun e he => by simp [hpath e he, hn]]
        exact ht (name :: rest)

end Steps

end Activity

end StageTree
