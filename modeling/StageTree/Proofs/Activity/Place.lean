import StageTree.Proofs.Activity.Story

/-! Where a step takes place. A step of a tree is an act of one stage in it, under the scope around that
stage. What the act tells shows how it found the stage: one that ends as it starts was started under a
cancelled scope, and one that submits its unit has no branch that did not go well. -/

namespace StageTree.Activity

variable {W U : Type} {s : Setting W U} {a : Activity U} {m : Moment} {w : W} {x : Act} {p : Played W U}

/-- Why the scope around the stage at the end of a path is cancelled, if it is: that of the group it belongs
to, or the given one for the stage that the path starts at. -/
def scopeAt? (scope : Option String) : List String → Activity U → Option String
  | [], _ => scope
  | name :: path, a => (named? name a.branches).bind (scopeAt? (a.fan.bind Fan.scope) path)

/-- A step is an act of the stage at some path, under the scope around it. -/
theorem Stepped.exists_acted (h : Stepped s x a m w p) (ha : a.Sound) :
    ∃ rest n m' q, a.at? rest = some n ∧ Acted s m' w n x q ∧ m'.path = m.path ++ rest ∧
      m'.scope = a.scopeAt? m.scope rest ∧ q.trace = p.trace ∧ q.world = p.world := by
  induction h with
  | @here a m w p h => exact ⟨[], a, m, p, rfl, h, (List.append_nil _).symm, rfl, rfl, rfl⟩
  | @branch a b m w p f i hp hf hb h ih =>
    have hm := List.mem_of_getElem? hb
    obtain ⟨rest, n, m', q, hn, hq, hpath, hscope, hplayed⟩ := ih (ha.branch hm)
    refine ⟨b.stage.name :: rest, n, m', q, ?_, hq, ?_, ?_, hplayed⟩
    · rw [at?_cons_of_mem ha.here.names hm, hn]
    · simpa [Moment.below] using hpath
    · rw [hscope, scopeAt?, (named?_eq_some ha.here.names).2 ⟨hm, rfl⟩, hf]
      rfl

/-! ### What an act tells -/

theorem Taken.started_notMem {since : Nat} {t : Turn W U} {phase : Phase U} {w' : W} {trace : List Entry}
    (h : Taken m since t phase w' trace) : Happening.started ∉ trace.map Entry.what := by
  cases h <;> simp [Moment.entry, Moment.ending]

theorem Onward.started_notMem {stage : Stage} {since : Nat} {phase : Phase U} {w' : W} {trace : List Entry}
    (h : Onward s m stage since w phase w' trace) : Happening.started ∉ trace.map Entry.what := by
  cases h with
  | idle => simp [Moment.entry, Moment.ending]
  | unit _ ht => simpa [Moment.entry] using ht.started_notMem

theorem started_notMem_joiningEntries (f : Fan) (r : Report Results) :
    Happening.started ∉ (a.joiningEntries f r m).map Entry.what := by
  rw [joiningEntries]
  split <;> simp [Moment.entry]

/-- A stage that starts is under a cancelled scope exactly if it ends in the same step and tells of nothing
else. -/
theorem Acted.scope_of_started (h : Acted s m w a x p) (ha : a.Coherent)
    (hs : Happening.started ∈ p.trace.map Entry.what) :
    m.scope.isSome = true ↔ ∃ rec, p.trace.map Entry.what = [.started, .ended rec] := by
  cases h with
  | refused hp hscope => simp [hscope, Moment.entry, Moment.ending]
  | fanned hp hscope hg hne => simp [hscope, Moment.entry]
  | begun hp hscope hg ho =>
    rw [hscope]
    cases ho with
    | idle hn =>
      -- a stage without steps has a group
      rcases ha.proper.content with hsteps | hgroup
      · rw [hn] at hsteps
        cases hsteps
      · exact absurd hg hgroup
    | unit _ ht => simp [Moment.entry]
  | looked hp ht => exact absurd hs ht.started_notMem
  | joined => exact absurd hs (started_notMem_joiningEntries _ _)
  | failed =>
    rw [List.map_append, List.mem_append] at hs
    rcases hs with hs | hs
    · exact absurd hs (started_notMem_joiningEntries _ _)
    · simp [Moment.ending, Moment.entry] at hs
  | gathered hp hf hb he hj hl hr ho =>
    rw [List.map_append, List.mem_append] at hs
    rcases hs with hs | hs
    · exact absurd hs (started_notMem_joiningEntries _ _)
    · exact absurd hs ho.started_notMem

theorem Taken.submitted_notMem {since : Nat} {t : Turn W U} {phase : Phase U} {w' : W} {trace : List Entry}
    (h : Taken m since t phase w' trace) (unit : UnitOfWork) :
    Happening.submitted unit ∉ trace.map Entry.what := by
  cases h <;> simp [Moment.entry, Moment.ending]

theorem submitted_notMem_joiningEntries (f : Fan) (r : Report Results) (unit : UnitOfWork) :
    Happening.submitted unit ∉ (a.joiningEntries f r m).map Entry.what := by
  rw [joiningEntries]
  split <;> simp [Moment.entry]

/-- A stage submits its unit when all branches of its group have ended without an error. -/
theorem Acted.clear_of_submitted (h : Acted s m w a x p) (ha : a.Coherent) {unit : UnitOfWork}
    (hs : Happening.submitted unit ∈ p.trace.map Entry.what) :
    a.stage.branches = a.branches.map stage ∧ ∀ b ∈ a.branches, b.hasEnded = true ∧ b.error? = none := by
  cases h with
  | refused | fanned => simp [Moment.entry, Moment.ending] at hs
  | begun hp hscope hg ho =>
    rw [ha.single (ha.waiting hp), Stage.branches, hg]
    exact ⟨rfl, by simp⟩
  | looked hp ht => exact absurd hs (ht.submitted_notMem unit)
  | joined => exact absurd hs (submitted_notMem_joiningEntries _ _ unit)
  | failed =>
    rw [List.map_append, List.mem_append] at hs
    rcases hs with hs | hs
    · exact absurd hs (submitted_notMem_joiningEntries _ _ unit)
    · simp [Moment.ending, Moment.entry] at hs
  | @gathered i ms f b lines error phase w' trace hp hf hb he hj hl hr ho =>
    exact ⟨ha.stages hf, fun c hc => ha.clear_of_joining hf hb he hj hl hr hc⟩

end StageTree.Activity
