import StageTree.Proofs.Activity.Coherent

/-! Marks: what the stages of a run leave in its trace for good. The marks in the trace are those that
the stages of the tree hold, since a stage leaves its marks in the step in which it ends, and none of
them is lost or added later. -/

namespace StageTree

open Activity

variable {W U : Type}

/-- What a stage leaves in the trace: its record, the outputs of its unit, or the failure of its unit.
A unit that only observed a cancellation leaves nothing. -/
inductive Mark where
  | record (r : StageRecord)
  | outputs (path : List String) (lines : List String)
  | failure (path : List String) (ms : Nat) (e : RunError)

def Entry.mark? (e : Entry) : Option Mark :=
  match e.what with
  | .ended record => some (.record record)
  | .returned (.ok lines) => some (.outputs e.path lines)
  | .returned (.error error) => if error.isCancellation then none else some (.failure e.path e.ms error)
  | _ => none

namespace Activity

def unitMark (path : List String) (ms : Nat) : Option (List String) → Option RunError → List Mark
  | some lines, _ => [.outputs path lines]
  | none, some e => if e.isCancellation then [] else [.failure path ms e]
  | none, none => []

/-- The marks that a stage at a path has left. The error of its group is not one of its unit. -/
def held (path : List String) (a : Activity U) : List Mark :=
  match a.phase with
  | .ended ms lines error =>
    (if (a.fan.bind fun f => f.join.error).isSome then [] else unitMark path ms lines error) ++
      [.record (.finish path (.ofMillis a.since) (.ofMillis ms) error)]
  | _ => []

def marks (path : List String) (a : Activity U) : List Mark :=
  (a.nodes path).flatMap fun n => n.2.held n.1

theorem held_of_phase {path : List String} {a : Activity U} {ms : Nat} {lines : Option (List String)}
    {error : Option RunError} (h : a.phase = .ended ms lines error) :
    a.held path =
      (if (a.fan.bind fun f => f.join.error).isSome then [] else unitMark path ms lines error) ++
        [.record (.finish path (.ofMillis a.since) (.ofMillis ms) error)] := by
  rw [held, h]

theorem held_eq_nil {path : List String} {a : Activity U} (h : a.hasEnded = false) :
    a.held path = [] := by
  rw [held]
  split
  · rename_i e
    rw [hasEnded_of_phase e] at h
    cases h
  · rfl

theorem marks_eq (path : List String) (a : Activity U) :
    a.marks path = a.held path ++ a.branches.flatMap fun b => b.marks (path ++ [b.stage.name]) := by
  rw [marks, nodes_eq, List.flatMap_cons, nodesBelow_eq_flatMap, List.flatMap_assoc]
  rfl

@[simp] theorem marks_ofStage (path : List String) (s : Stage) : (ofStage s : Activity U).marks path = [] := by
  rw [marks_eq, held_eq_nil rfl]
  rfl

/-- A cancellation leaves no mark. -/
@[simp] theorem marks_cancel (path : List String) (a : Activity U) (reason : String) :
    (a.cancel reason).marks path = a.marks path := by
  induction a using Activity.induction generalizing path with
  | h a ih =>
    rcases a.cancel_cases reason with e | ⟨join, hp, hf, e⟩
    · rw [e]
    · have hn : a.hasEnded = false := by simp [hasEnded, hp]
      rw [e, marks_eq, marks_eq, held_eq_nil hn, held_eq_nil (by simpa [hasEnded] using hn),
        List.flatMap_map]
      simp only [List.nil_append, cancel_stage]
      exact List.flatMap_congr fun b hb => ih b hb _

section Steps

variable {s : Setting W U} {m : Moment} {w : W} {a : Activity U} {x : Act} {p : Played W U}

@[simp] theorem mark?_joiningEntries (f : Fan) (r : Report Results) :
    (a.joiningEntries f r m).filterMap Entry.mark? = [] := by
  rw [joiningEntries]
  split <;> rfl

theorem Taken.ms_eq {since : Nat} {t : Turn W U} {phase : Phase U} {w' : W} {trace : List Entry}
    (h : Taken m since t phase w' trace) {e : Entry} (he : e ∈ trace) : e.ms = m.now := by
  cases h with
  | waits w notes u =>
    obtain ⟨_, _, rfl⟩ := List.mem_map.1 he
    rfl
  | returns w notes r =>
    rcases List.mem_append.1 he with he | he
    · obtain ⟨_, _, rfl⟩ := List.mem_map.1 he
      rfl
    · simp only [List.mem_cons, List.not_mem_nil, or_false] at he
      rcases he with rfl | rfl <;> rfl

theorem Onward.ms_eq {stage : Stage} {since : Nat} {phase : Phase U} {w' : W} {trace : List Entry}
    (h : Onward s m stage since w phase w' trace) {e : Entry} (he : e ∈ trace) : e.ms = m.now := by
  cases h with
  | idle _ => exact List.mem_singleton.1 he ▸ rfl
  | unit _ ht =>
    rcases List.mem_cons.1 he with rfl | he
    · rfl
    · exact ht.ms_eq he

theorem ms_eq_of_joiningEntries {f : Fan} {r : Report Results} {e : Entry}
    (he : e ∈ a.joiningEntries f r m) : e.ms = m.now := by
  rw [joiningEntries] at he
  split at he <;> simp only [List.mem_cons, List.not_mem_nil, or_false] at he
  · rcases he with rfl | rfl <;> rfl
  · exact he ▸ rfl

theorem Acted.ms_eq (h : Acted s m w a x p) {e : Entry} (he : e ∈ p.trace) : e.ms = m.now := by
  cases h with
  | refused | fanned =>
    simp only [List.mem_cons, List.not_mem_nil, or_false] at he
    rcases he with rfl | rfl <;> rfl
  | begun hp hs hg ho =>
    rcases List.mem_cons.1 he with rfl | he
    · rfl
    · exact ho.ms_eq he
  | looked hp ht => exact ht.ms_eq he
  | joined => exact ms_eq_of_joiningEntries he
  | failed =>
    rcases List.mem_append.1 he with he | he
    · exact ms_eq_of_joiningEntries he
    · exact List.mem_singleton.1 he ▸ rfl
  | gathered hp hf hb hph hj hl hr ho =>
    rcases List.mem_append.1 he with he | he
    · exact ms_eq_of_joiningEntries he
    · exact ho.ms_eq he

/-- Whatever happens in a step happens at its instant. -/
theorem Stepped.ms_eq (h : Stepped s x a m w p) {e : Entry} (he : e ∈ p.trace) : e.ms = m.now := by
  induction h with
  | here h => exact h.ms_eq he
  | branch hp hf hb h ih => exact ih he

/-- What becomes of a stage whose runner was looked at leaves the marks of its unit and its record. -/
theorem Taken.marks {since : Nat} {t : Turn W U} {phase : Phase U} {w' : W} {trace : List Entry}
    (h : Taken m since t phase w' trace) {stage : Stage} {fan : Option Fan} {branches : List (Activity U)}
    (hf : (fan.bind fun f => f.join.error) = none) :
    trace.filterMap Entry.mark? = (⟨stage, since, phase, fan, branches⟩ : Activity U).held m.path := by
  have hnotes := m.filterMap_noted (show ∀ n, Entry.mark? (m.entry (.noted n)) = none from fun _ => rfl)
  cases h with
  | waits w notes u => rw [hnotes]; rfl
  | returns w notes r =>
    rw [List.filterMap_append, hnotes, List.nil_append]
    cases r with
    | ok lines => simp [held, hf, unitMark, Entry.mark?, Moment.entry, Moment.ending, Except.toOption, UnitResult.error?]
    | error e =>
      by_cases hc : e.isCancellation <;>
        simp [held, hf, hc, unitMark, Entry.mark?, Moment.entry, Moment.ending, Except.toOption,
          UnitResult.error?]

theorem Onward.marks {stage : Stage} {since : Nat} {phase : Phase U} {w' : W} {trace : List Entry}
    (h : Onward s m stage since w phase w' trace) {fan : Option Fan} {branches : List (Activity U)}
    (hf : (fan.bind fun f => f.join.error) = none) :
    trace.filterMap Entry.mark? = (⟨stage, since, phase, fan, branches⟩ : Activity U).held m.path := by
  cases h with
  | idle h => simp [held, hf, unitMark, Entry.mark?, Moment.ending, Moment.entry]
  | unit h ht =>
    rw [List.filterMap_cons_none rfl]
    exact ht.marks hf

/-- The entries of an act are the marks that the stage holds after it. -/
theorem Acted.held_eq (h : Acted s m w a x p) (ha : a.Coherent) :
    p.trace.filterMap Entry.mark? = p.activity.held m.path := by
  cases h with
  | refused hp hs =>
    simp only [held, ha.waiting hp]
    rfl
  | fanned hp hs hg hne => rfl
  | begun hp hs hg ho =>
    rw [List.filterMap_cons_none rfl]
    exact ho.marks (by simp [ha.waiting hp])
  | looked hp ht =>
    refine ht.marks ?_
    cases hf : a.fan with
    | none => rfl
    | some f =>
      cases he : f.join.error with
      | none => simp [he]
      | some e => exact absurd he (ha.error_ne_of_working hp f e hf)
  | joined hp hf hb he hj hl =>
    rw [mark?_joiningEntries, held_eq_nil (by simp [hasEnded, hp])]
  | failed hp hf hb he hj hl hr =>
    rw [List.filterMap_append, mark?_joiningEntries]
    simp [held, hr, Entry.mark?, Moment.ending, Moment.entry]
  | gathered hp hf hb he hj hl hr ho =>
    rw [List.filterMap_append, mark?_joiningEntries, List.nil_append]
    exact ho.marks (by simp [hr])

theorem joiningBranches_marks (path : List String) (f : Fan) (r : Report Results) :
    ((a.joiningBranches f r).flatMap fun b => b.marks (path ++ [b.stage.name])) =
      a.branches.flatMap fun b => b.marks (path ++ [b.stage.name]) := by
  rcases a.joiningBranches_eq f r with e | ⟨reason, e⟩ <;> rw [e]
  simp [List.flatMap_map]

/-- An act leaves the marks below the stage as they are. -/
theorem Acted.marks_below (h : Acted s m w a x p) (ha : a.Coherent) (path : List String) :
    (p.activity.branches.flatMap fun b => b.marks (path ++ [b.stage.name])) =
      a.branches.flatMap fun b => b.marks (path ++ [b.stage.name]) := by
  cases h with
  | refused | begun | looked => rfl
  | fanned hp hs hg hne => simp [ha.single (ha.waiting hp), List.flatMap_map]
  | joined | failed | gathered => exact joiningBranches_marks path _ _

/-- What the members of a list hold, one of which has something new and nothing of the old any more. -/
theorem flatMap_set_perm {α β : Type} {l : List α} {i : Nat} {x y : α} {g : α → List β} {new old : List β}
    (hx : l[i]? = some x) (h : (g y ++ old).Perm (new ++ g x)) :
    ((l.set i y).flatMap g ++ old).Perm (new ++ l.flatMap g) := by
  classical
  rw [List.perm_iff_count] at *
  intro z
  have hz := h z
  induction l generalizing i with
  | nil => simp at hx
  | cons c l ih =>
    cases i with
    | zero =>
      obtain rfl := Option.some.inj hx
      simp only [List.set_cons_zero, List.flatMap_cons, List.count_append] at *
      omega
    | succ i =>
      have hl := ih hx
      simp only [List.set_cons_succ, List.flatMap_cons, List.count_append] at *
      omega

/-- The entries of a step are the marks that the tree holds after it and did not hold before. -/
theorem Stepped.marks_perm (h : Stepped s x a m w p) (ha : a.Sound) :
    (p.activity.marks m.path).Perm (p.trace.filterMap Entry.mark? ++ a.marks m.path) := by
  induction h with
  | @here a m w p h =>
    rw [marks_eq, marks_eq, h.marks_below ha.here, ← h.held_eq ha.here, held_eq_nil h.not_hasEnded,
      List.nil_append]
  | @branch a b m w p f i hp hf hb h ih =>
    have hn (c : Activity U) (hc : c.phase = .fanned) : c.held m.path = [] :=
      held_eq_nil (by simp [hasEnded, hc])
    rw [marks_eq, marks_eq, hn a hp, hn _ (by exact hp), List.nil_append, List.nil_append]
    have hperm := ih (ha.branch (List.mem_of_getElem? hb))
    refine (List.Perm.of_eq (List.append_nil _)).symm.trans (flatMap_set_perm hb ?_)
    rw [List.append_nil, h.stage_eq]
    exact hperm

end Steps

end Activity

end StageTree
