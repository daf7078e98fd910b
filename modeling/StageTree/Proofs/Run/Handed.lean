import StageTree.Proofs.Run.Moves

/-! What a runner is handed. A runner can keep the units that it is asked to start. To do so changes nothing
in a run, and the units that are kept are those whose submission the trace tells of. -/

namespace StageTree

variable {W U : Type}

def Happening.unit? : Happening → Option UnitOfWork
  | .submitted unit => some unit
  | _ => none

def Entry.units (trace : List Entry) : List UnitOfWork := trace.filterMap fun e => e.what.unit?

/-- The runner that keeps the units it is asked to start, in its world. -/
def Runner.keeping (R : Runner W U) : Runner (W × List UnitOfWork) U where
  start unit l w :=
    let t := R.start unit l w.1
    ⟨(t.world, w.2 ++ [unit]), t.notes, t.progress⟩
  look u l w :=
    let t := R.look u l w.1
    ⟨(t.world, w.2), t.notes, t.progress⟩
  due := R.due
  looks := R.looks

def Setting.keeping (s : Setting W U) : Setting (W × List UnitOfWork) U := ⟨s.runner.keeping, s.vars⟩

/-- A stage after it went on, with the units kept before and those that were submitted. -/
def Played.keeping (units : List UnitOfWork) (p : Played W U) : Played (W × List UnitOfWork) U :=
  ⟨p.activity, (p.world, units ++ Entry.units p.trace), p.trace⟩

namespace Activity

variable {s : Setting W U} {units : List UnitOfWork}

theorem after_keeping (entries : List Entry) (p : Played W U) :
    (p.keeping (units ++ Entry.units entries)).after entries = (p.after entries).keeping units := by
  simp [Played.keeping, Played.after, Entry.units]

theorem finish_keeping (a : Activity U) (m : Moment) (lines : Option (List String)) (error : Option RunError)
    (w : W) : a.finish m lines error (w, units) = (a.finish m lines error w).keeping units := by
  simp [finish, Played.keeping, Entry.units, Moment.entry, Happening.unit?]

/-- To look at a runner submits nothing. -/
theorem take_keeping (a : Activity U) (m : Moment) (t : Turn W U) :
    a.take m ⟨(t.world, units), t.notes, t.progress⟩ = (a.take m t).keeping units := by
  obtain ⟨w, notes, progress⟩ := t
  have hnotes : Entry.units (notes.map fun n => m.entry (.noted n)) = [] := by
    simp [Entry.units, Moment.entry, Happening.unit?]
  have hreturned (result : UnitResult) : Entry.units [m.entry (.returned result)] = [] := rfl
  unfold take
  rw [← after_keeping, hnotes, List.append_nil]
  cases progress with
  | waits u => simp [Played.keeping, Entry.units]
  | returns result =>
    cases result with
    | ok lines =>
      rw [← after_keeping, hreturned, List.append_nil]
      exact congrArg (Played.after · _ |>.after _) (finish_keeping a m (some lines) none w)
    | error e =>
      rw [← after_keeping, hreturned, List.append_nil]
      exact congrArg (Played.after · _ |>.after _) (finish_keeping a m none (some e) w)

/-- The unit that a stage gets to is kept. -/
theorem toUnit_keeping (a : Activity U) (m : Moment) (w : W) :
    a.toUnit s.keeping m (w, units) = (a.toUnit s m w).keeping units := by
  unfold toUnit
  split
  · rw [← after_keeping]
    exact congrArg (Played.after · _) (take_keeping a m (s.runner.start (.ofStage a.stage s.vars) m.look w))
  · exact finish_keeping a m none none w

theorem gather_keeping (a : Activity U) (f : Fan) (m : Moment) (w : W) :
    a.gather s.keeping f m (w, units) = (a.gather s f m w).keeping units := by
  simp only [gather]
  by_cases hl : f.join.reports.length < a.branches.length
  · simp [hl, Played.keeping, Entry.units]
  · rw [if_neg hl, if_neg hl]
    cases f.join.error with
    | some e => exact finish_keeping _ m none _ w
    | none => exact toUnit_keeping _ m w

theorem start_keeping (a : Activity U) (m : Moment) (w : W) :
    a.start s.keeping m (w, units) = (a.start s m w).keeping units := by
  have hstarted : Entry.units [m.entry .started] = [] := rfl
  unfold start
  rw [← after_keeping, hstarted, List.append_nil]
  refine congrArg (Played.after · _) ?_
  split
  · exact finish_keeping _ m none _ w
  · rename_i stages _ _
    have hfanned : Entry.units [m.entry (.fanned stages.length)] = [] := rfl
    rw [← after_keeping, hfanned, List.append_nil, gather_keeping]
  · exact toUnit_keeping _ m w

theorem joinReport_keeping (a : Activity U) (f : Fan) (r : Report Results) (m : Moment) (w : W) :
    a.joinReport s.keeping f r m (w, units) = (a.joinReport s f r m w).keeping units := by
  have hjoined : Entry.units [m.entry (.joined r.name r.error)] = [] := rfl
  have hcancelling : Entry.units [m.entry (.joined r.name r.error), m.entry (.cancelling r.name)] = [] := rfl
  simp only [joinReport, gather_keeping]
  split
  · rw [← after_keeping, hcancelling, List.append_nil]
  · rw [← after_keeping, hjoined, List.append_nil]

theorem act_keeping (a : Activity U) (m : Moment) (w : W) (x : Act) :
    a.act s.keeping m (w, units) x = (a.act s m w x).map (Played.keeping units) := by
  cases x with
  | start =>
    rw [act, act]
    cases a.phase with
    | waiting => exact congrArg some (start_keeping a m w)
    | _ => rfl
  | look =>
    rw [act, act]
    cases a.phase with
    | working u => exact congrArg some (take_keeping a m (s.runner.look u m.look w))
    | _ => rfl
  | join i =>
    rw [act, act]
    split
    · split
      · split
        · rfl
        · exact congrArg some (joinReport_keeping a _ _ m w)
      · rfl
    · rfl

theorem step_keeping (x : Act) (position : List Nat) (a : Activity U) (m : Moment) (w : W) :
    a.step s.keeping x position m (w, units) = (a.step s x position m w).map (Played.keeping units) := by
  induction position generalizing a m with
  | nil => exact act_keeping a m w x
  | cons i position ih =>
    unfold step
    split
    · rw [ih, Option.map_map, Option.map_map]
      rfl
    · rfl

end Activity

namespace Run

variable {s : Setting W U}

def keeping (r : Run W U) : Run (W × List UnitOfWork) U :=
  { r with world := (r.world, Entry.units r.trace) }

theorem begin_keeping (p : Pipeline) (w : W) : (begin p (w, []) : Run _ U) = (begin p w).keeping := by
  unfold begin advance
  cases p.stages <;> rfl

theorem take_keeping (r : Run W U) (p : Played W U) :
    r.keeping.take (p.keeping (Entry.units r.trace)) = (r.take p).keeping := by
  match hp : p.activity.phase, hf : r.future with
  | .waiting, _ | .fanned, _ | .working _, _ => simp [take, keeping, Played.keeping, hp, Entry.units]
  | .ended ms lines none, st :: future => simp [take, advance, keeping, Played.keeping, hp, hf, Entry.units]
  | .ended ms lines none, [] =>
    simp [take, advance, keeping, Played.keeping, hp, hf, Entry.units, entry, Happening.unit?]
  | .ended ms lines (some e), _ =>
    simp [take, keeping, Played.keeping, hp, Entry.units, entry, Happening.unit?]

theorem cancel_keeping (r : Run W U) (reason : String) : r.keeping.cancel reason = (r.cancel reason).keeping := by
  obtain ⟨now, cancelled, _, _, _, _, _, _, _⟩ := r
  cases cancelled <;> rfl

theorem step_keeping (r : Run W U) (move : Move) :
    r.keeping.step s.keeping move = (r.step s move).map keeping := by
  cases hv : r.verdict with
  | some v =>
    have hv' : r.keeping.verdict = some v := hv
    simp [step, hv, hv']
  | none =>
    have hv' : r.keeping.verdict = none := hv
    cases move with
    | cancel reason =>
      rw [step_cancel reason hv, step_cancel reason hv', cancel_keeping]
      rfl
    | tick ms =>
      simp only [step, hv, hv']
      show (if r.now < ms then _ else _) = _
      split <;> rfl
    | stage position x draw =>
      simp only [step, hv, hv']
      show (r.present.bind _) = _
      cases r.present with
      | none => rfl
      | some a =>
        show (a.step s.keeping x position (r.moment a draw) (r.world, Entry.units r.trace)).map _ =
          ((a.step s x position (r.moment a draw) r.world).map r.take).map keeping
        rw [Activity.step_keeping, Option.map_map, Option.map_map]
        exact congrArg (Option.map · _) (funext fun q => take_keeping r q)

theorem moved_keeping (r : Run W U) (moves : List Move) :
    r.keeping.moved s.keeping moves = (r.moved s moves).map keeping := by
  induction moves generalizing r with
  | nil => rfl
  | cons move moves ih =>
    show (r.keeping.step s.keeping move).bind (fun q => q.moved s.keeping moves) =
      ((r.step s move).bind fun q => q.moved s moves).map keeping
    rw [step_keeping]
    cases r.step s move with
    | none => rfl
    | some q => exact ih q

/-- A runner is asked to start the units whose submission is told of, in the same order, and no others. -/
theorem handed_of_moved (s : Setting W U) (p : Pipeline) (w : W) {moves : List Move} {r : Run W U}
    (h : (begin p w).moved s moves = some r) : (begin p (w, [])).moved s.keeping moves = some r.keeping := by
  rw [begin_keeping, moved_keeping, h]
  rfl

end Run

end StageTree
