import StageTree.Proofs.Activity.Tree

/-! What a stage can do in one step, case by case. Everything that is proved about steps is proved from
`Acted`, which says what an act makes of the stage itself, and from `Stepped`, which puts an act of a
stage below into the tree. -/

namespace StageTree

def UnitResult.error? : UnitResult → Option RunError
  | .ok _ => none
  | .error e => some e

def Moment.ending (m : Moment) (since : Nat) (error : Option RunError) : Entry :=
  m.entry (.ended (.finish m.path (.ofMillis since) (.ofMillis m.now) error))

/-- What a branch of a group finds when the stage of the group finds `m`. -/
def Moment.below (m : Moment) (f : Fan) (name : String) : Moment :=
  { m with scope := f.scope, path := m.path ++ [name] }

/-- What passes over notes finds nothing among them. -/
theorem Moment.filterMap_noted {α : Type} (m : Moment) {pick : Entry → Option α}
    (h : ∀ n, pick (m.entry (.noted n)) = none) (notes : List Note) :
    (notes.map fun n => m.entry (.noted n)).filterMap pick = [] := by
  simp [List.filterMap_map, h]

def Fan.joining (f : Fan) (failFast : Bool) (r : Report Results) : Fan :=
  ⟨if Join.cancels failFast f.scope r then some (Join.failureReason r.name) else f.scope,
    f.join.add failFast f.scope r⟩

namespace Activity

variable {W U : Type}

def joiningBranches (a : Activity U) (f : Fan) (r : Report Results) : List (Activity U) :=
  if Join.cancels a.stage.failsFast f.scope r then a.branches.map (cancel (Join.failureReason r.name))
  else a.branches

def joiningEntries (a : Activity U) (f : Fan) (r : Report Results) (m : Moment) : List Entry :=
  m.entry (.joined r.name r.error) ::
    if Join.cancels a.stage.failsFast f.scope r then [m.entry (.cancelling r.name)] else []

/-- What becomes of a stage whose runner was looked at: it waits on, or ends with what was returned. -/
inductive Taken (m : Moment) (since : Nat) : Turn W U → Phase U → W → List Entry → Prop
  | waits (w : W) (notes : List Note) (u : U) :
      Taken m since ⟨w, notes, .waits u⟩ (.working u) w (notes.map fun n => m.entry (.noted n))
  | returns (w : W) (notes : List Note) (r : UnitResult) :
      Taken m since ⟨w, notes, .returns r⟩ (.ended m.now r.toOption r.error?) w
        ((notes.map fun n => m.entry (.noted n)) ++ [m.entry (.returned r), m.ending since r.error?])

/-- What becomes of a stage whose group is over, if it has one. -/
inductive Onward (s : Setting W U) (m : Moment) (stage : Stage) (since : Nat) (w : W) :
    Phase U → W → List Entry → Prop
  | idle (h : stage.hasSteps = false) :
      Onward s m stage since w (.ended m.now none none) w [m.ending since none]
  | unit {phase : Phase U} {w' : W} {trace : List Entry} (h : stage.hasSteps = true)
      (ht : Taken m since (s.runner.start (.ofStage stage s.vars) m.look w) phase w' trace) :
      Onward s m stage since w phase w' (m.entry (.submitted (.ofStage stage s.vars)) :: trace)

/-- What an act makes of a stage. -/
inductive Acted (s : Setting W U) (m : Moment) (w : W) (a : Activity U) : Act → Played W U → Prop
  | refused {reason : String} (hp : a.phase = .waiting) (hs : m.scope = some reason) :
      Acted s m w a .start
        ⟨{ a with since := m.now, phase := .ended m.now none (some (.cancelled a.stage.name reason)) }, w,
          [m.entry .started, m.ending m.now (some (.cancelled a.stage.name reason))]⟩
  | fanned {stages : List Stage} (hp : a.phase = .waiting) (hs : m.scope = none)
      (hg : a.stage.parallel = some stages) (hne : stages ≠ []) :
      Acted s m w a .start
        ⟨{ a with since := m.now, phase := .fanned, fan := some {}, branches := stages.map ofStage }, w,
          [m.entry .started, m.entry (.fanned stages.length)]⟩
  | begun {phase : Phase U} {w' : W} {trace : List Entry} (hp : a.phase = .waiting) (hs : m.scope = none)
      (hg : a.stage.parallel = none) (ho : Onward s m a.stage m.now w phase w' trace) :
      Acted s m w a .start
        ⟨{ a with since := m.now, phase := phase }, w', m.entry .started :: trace⟩
  | looked {u : U} {phase : Phase U} {w' : W} {trace : List Entry} (hp : a.phase = .working u)
      (ht : Taken m a.since (s.runner.look u m.look w) phase w' trace) :
      Acted s m w a .look ⟨{ a with phase := phase }, w', trace⟩
  | joined {i ms : Nat} {f : Fan} {b : Activity U} {lines : Option (List String)}
      {error : Option RunError} (hp : a.phase = .fanned) (hf : a.fan = some f)
      (hb : a.branches[i]? = some b) (he : b.phase = .ended ms lines error) (hj : f.hasJoined i = false)
      (hl : (f.joining a.stage.failsFast (b.report i error)).join.reports.length < a.branches.length) :
      Acted s m w a (.join i)
        ⟨{ a with
            fan := some (f.joining a.stage.failsFast (b.report i error))
            branches := a.joiningBranches f (b.report i error) }, w,
          a.joiningEntries f (b.report i error) m⟩
  | failed {i ms : Nat} {f : Fan} {b : Activity U} {lines : Option (List String)}
      {error : Option RunError} {e : RunError} (hp : a.phase = .fanned) (hf : a.fan = some f)
      (hb : a.branches[i]? = some b) (he : b.phase = .ended ms lines error) (hj : f.hasJoined i = false)
      (hl : ¬ (f.joining a.stage.failsFast (b.report i error)).join.reports.length < a.branches.length)
      (hr : (f.joining a.stage.failsFast (b.report i error)).join.error = some e) :
      Acted s m w a (.join i)
        ⟨{ a with
            phase := .ended m.now none (some e)
            fan := some (f.joining a.stage.failsFast (b.report i error))
            branches := a.joiningBranches f (b.report i error) }, w,
          a.joiningEntries f (b.report i error) m ++ [m.ending a.since (some e)]⟩
  | gathered {i ms : Nat} {f : Fan} {b : Activity U} {lines : Option (List String)}
      {error : Option RunError} {phase : Phase U} {w' : W} {trace : List Entry} (hp : a.phase = .fanned)
      (hf : a.fan = some f) (hb : a.branches[i]? = some b) (he : b.phase = .ended ms lines error)
      (hj : f.hasJoined i = false)
      (hl : ¬ (f.joining a.stage.failsFast (b.report i error)).join.reports.length < a.branches.length)
      (hr : (f.joining a.stage.failsFast (b.report i error)).join.error = none)
      (ho : Onward s m a.stage a.since w phase w' trace) :
      Acted s m w a (.join i)
        ⟨{ a with
            phase := phase
            fan := some (f.joining a.stage.failsFast (b.report i error))
            branches := a.joiningBranches f (b.report i error) }, w',
          a.joiningEntries f (b.report i error) m ++ trace⟩

/-- What a step of a stage below, or of the stage itself, makes of a tree. -/
inductive Stepped (s : Setting W U) (x : Act) : Activity U → Moment → W → Played W U → Prop
  | here {a : Activity U} {m : Moment} {w : W} {p : Played W U} (h : Acted s m w a x p) : Stepped s x a m w p
  | branch {a b : Activity U} {m : Moment} {w : W} {p : Played W U} {f : Fan} {i : Nat}
      (hp : a.phase = .fanned) (hf : a.fan = some f) (hb : a.branches[i]? = some b)
      (h : Stepped s x b (m.below f b.stage.name) w p) :
      Stepped s x a m w ⟨{ a with branches := a.branches.set i p.activity }, p.world, p.trace⟩

/-! ### Acts are what they are said to be -/

variable {s : Setting W U} {a : Activity U} {m : Moment} {w : W}

theorem taken_take (t : Turn W U) :
    ∃ phase w' trace, a.take m t = ⟨{ a with phase := phase }, w', trace⟩ ∧
      Taken m a.since t phase w' trace := by
  obtain ⟨w', notes, progress⟩ := t
  match progress with
  | .waits u => exact ⟨_, _, _, by simp [take, Played.after], .waits w' notes u⟩
  | .returns (.ok lines) =>
    exact ⟨_, _, _, by simp [take, Played.after, finish, Moment.ending, UnitResult.error?, Except.toOption],
      .returns w' notes (.ok lines)⟩
  | .returns (.error e) =>
    exact ⟨_, _, _, by simp [take, Played.after, finish, Moment.ending, UnitResult.error?, Except.toOption],
      .returns w' notes (.error e)⟩

theorem onward_toUnit (s : Setting W U) (a : Activity U) (m : Moment) (w : W) :
    ∃ phase w' trace, a.toUnit s m w = ⟨{ a with phase := phase }, w', trace⟩ ∧
      Onward s m a.stage a.since w phase w' trace := by
  by_cases h : a.stage.hasSteps
  · obtain ⟨phase, w', trace, e, ht⟩ :=
      taken_take (a := a) (m := m) (s.runner.start (.ofStage a.stage s.vars) m.look w)
    exact ⟨_, _, _, by simp [toUnit, h, e, Played.after], .unit h ht⟩
  · exact ⟨_, _, _, by simp [toUnit, h, finish, Moment.ending], .idle (by simpa using h)⟩

theorem acted_start {p : Played W U} (hne : a.stage.parallel ≠ some []) (hp : a.phase = .waiting)
    (h : a.start s m w = p) : Acted s m w a .start p := by
  subst h
  cases hs : m.scope with
  | some reason =>
    have e := Acted.refused (s := s) (w := w) hp hs
    simpa [start, hs, finish, Moment.ending, Played.after] using e
  | none =>
    cases hg : a.stage.parallel with
    | none =>
      obtain ⟨phase, w', trace, e, ho⟩ := onward_toUnit s { a with since := m.now } m w
      have e' := Acted.begun hp hs hg ho
      simpa [start, hs, hg, e, Played.after] using e'
    | some stages =>
      have hst : stages ≠ [] := fun e => hne (by rw [hg, e])
      have e := Acted.fanned (s := s) (w := w) hp hs hg hst
      have hl : 0 < stages.length := List.length_pos_iff.2 hst
      simpa [start, hs, hg, gather, Played.after, hl] using e

theorem acted_join {p : Played W U} {i ms : Nat} {f : Fan} {b : Activity U}
    {lines : Option (List String)} {error : Option RunError} (hp : a.phase = .fanned)
    (hf : a.fan = some f) (hb : a.branches[i]? = some b) (he : b.phase = .ended ms lines error)
    (hj : f.hasJoined i = false) (h : a.joinReport s f (b.report i error) m w = p) :
    Acted s m w a (.join i) p := by
  subst h
  have hlen : (a.joiningBranches f (b.report i error)).length = a.branches.length := by
    rw [joiningBranches]
    split <;> simp
  have e : a.joinReport s f (b.report i error) m w =
      ({ a with branches := a.joiningBranches f (b.report i error) }.gather s
        (f.joining a.stage.failsFast (b.report i error)) m w).after
        (a.joiningEntries f (b.report i error) m) := by
    by_cases hc : Join.cancels a.stage.failsFast f.scope (b.report i error)
    · simp [joinReport, joiningBranches, joiningEntries, Fan.joining, cancelAll_eq_map, hc]
    · simp [joinReport, joiningBranches, joiningEntries, Fan.joining, hc]
  rw [e, gather]
  split
  · rename_i hl
    have e' := Acted.joined (s := s) (m := m) (w := w) hp hf hb he hj (by simpa [hlen] using hl)
    simpa [Played.after, hp] using e'
  · rename_i hl
    rw [hlen] at hl
    split
    · rename_i e hr
      have e' := Acted.failed (s := s) (m := m) (w := w) hp hf hb he hj hl hr
      simpa [Played.after, finish, Moment.ending] using e'
    · rename_i hr
      obtain ⟨phase, w', trace, e', ho⟩ := onward_toUnit s
        { a with
          phase := .fanned
          fan := some (f.joining a.stage.failsFast (b.report i error))
          branches := a.joiningBranches f (b.report i error) } m w
      rw [e']
      exact Acted.gathered hp hf hb he hj hl hr ho

theorem acted_of_act {x : Act} {p : Played W U} (hne : a.stage.parallel ≠ some [])
    (h : a.act s m w x = some p) : Acted s m w a x p := by
  cases x with
  | start =>
    rw [act] at h
    split at h
    · exact acted_start hne ‹_› (Option.some.inj h)
    · cases h
  | look =>
    rw [act] at h
    split at h
    · rename_i u hp
      obtain ⟨phase, w', trace, e, ht⟩ := taken_take (a := a) (m := m) (s.runner.look u m.look w)
      rw [e] at h
      exact Option.some.inj h ▸ .looked hp ht
    · cases h
  | join i =>
    rw [act] at h
    split at h
    · rename_i f b hp hf hb
      split at h
      · split at h
        · cases h
        · rename_i he hj
          exact acted_join hp hf hb he (by simpa using hj) (Option.some.inj h)
      · cases h
    · cases h

/-- A step at a position is an act of the stage there, in the tree around it. -/
theorem stepped_of_step {x : Act} {position : List Nat} {p : Played W U}
    (hne : Everywhere (fun a => a.stage.parallel ≠ some []) a)
    (h : a.step s x position m w = some p) : Stepped s x a m w p := by
  induction position generalizing a m p with
  | nil => exact .here (acted_of_act hne.here h)
  | cons i position ih =>
    rw [step] at h
    split at h
    · rename_i f b hp hf hb
      obtain ⟨q, hq, rfl⟩ := Option.map_eq_some_iff.1 h
      exact .branch hp hf hb (ih (hne.branch (List.mem_of_getElem? hb)) hq)
    · cases h

end StageTree.Activity
