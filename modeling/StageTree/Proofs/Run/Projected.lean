import StageTree.Proofs.Run.Moves

/-! Runs in a larger world. A runner may keep more in its world than another one that does the same. Then the same
moves make the same run, but for what is kept. -/

namespace StageTree

variable {V W U : Type}

def Turn.mapWorld (f : V → W) (t : Turn V U) : Turn W U := ⟨f t.world, t.notes, t.progress⟩

def Played.mapWorld (f : V → W) (p : Played V U) : Played W U := ⟨p.activity, f p.world, p.trace⟩

def Run.mapWorld (f : V → W) (r : Run V U) : Run W U := { r with world := f r.world }

/-- A runner that does in a part of its world what another one does. -/
structure Runner.Projects (f : V → W) (R : Runner V U) (S : Runner W U) : Prop where
  start : ∀ unit l v, S.start unit l (f v) = (R.start unit l v).mapWorld f
  look : ∀ u l v, S.look u l (f v) = (R.look u l v).mapWorld f

namespace Activity

variable {f : V → W} {R : Runner V U} {S : Runner W U} {vars : Bindings}

theorem finish_mapWorld (a : Activity U) (m : Moment) (lines : Option (List String)) (error : Option RunError)
    (v : V) : a.finish m lines error (f v) = (a.finish m lines error v).mapWorld f := rfl

theorem take_mapWorld (a : Activity U) (m : Moment) (t : Turn V U) :
    a.take m (t.mapWorld f) = (a.take m t).mapWorld f := by
  obtain ⟨v, notes, progress⟩ := t
  rcases progress with u | lines | e <;> rfl

variable (h : R.Projects f S)

include h

theorem toUnit_mapWorld (a : Activity U) (m : Moment) (v : V) :
    a.toUnit ⟨S, vars⟩ m (f v) = (a.toUnit ⟨R, vars⟩ m v).mapWorld f := by
  simp only [toUnit, h.start, take_mapWorld, finish_mapWorld]
  split <;> rfl

theorem gather_mapWorld (a : Activity U) (fan : Fan) (m : Moment) (v : V) :
    a.gather ⟨S, vars⟩ fan m (f v) = (a.gather ⟨R, vars⟩ fan m v).mapWorld f := by
  simp only [gather, toUnit_mapWorld h, finish_mapWorld]
  split
  · rfl
  · cases fan.join.error <;> rfl

theorem start_mapWorld (a : Activity U) (m : Moment) (v : V) :
    a.start ⟨S, vars⟩ m (f v) = (a.start ⟨R, vars⟩ m v).mapWorld f := by
  simp only [start, gather_mapWorld h, toUnit_mapWorld h, finish_mapWorld]
  split <;> rfl

theorem joinReport_mapWorld (a : Activity U) (fan : Fan) (r : Report Results) (m : Moment) (v : V) :
    a.joinReport ⟨S, vars⟩ fan r m (f v) = (a.joinReport ⟨R, vars⟩ fan r m v).mapWorld f := by
  simp only [joinReport, gather_mapWorld h]
  split <;> rfl

theorem act_mapWorld (a : Activity U) (m : Moment) (v : V) (x : Act) :
    a.act ⟨S, vars⟩ m (f v) x = (a.act ⟨R, vars⟩ m v x).map (Played.mapWorld f) := by
  cases x with
  | start =>
    simp only [act, start_mapWorld h]
    split <;> rfl
  | look =>
    simp only [act, h.look, take_mapWorld]
    split <;> rfl
  | join i =>
    simp only [act, joinReport_mapWorld h]
    split
    · split
      · split <;> rfl
      · rfl
    · rfl

theorem step_mapWorld (x : Act) (position : List Nat) (a : Activity U) (m : Moment) (v : V) :
    a.step ⟨S, vars⟩ x position m (f v) = (a.step ⟨R, vars⟩ x position m v).map (Played.mapWorld f) := by
  induction position generalizing a m with
  | nil => exact act_mapWorld h a m v x
  | cons i position ih =>
    unfold step
    split
    · rw [ih, Option.map_map, Option.map_map]
      rfl
    · rfl

end Activity

namespace Run

variable {f : V → W} {R : Runner V U} {S : Runner W U} {vars : Bindings}

theorem begin_mapWorld (p : Pipeline) (v : V) : (begin p (f v) : Run W U) = (begin p v).mapWorld f := by
  unfold begin advance
  cases p.stages <;> rfl

theorem take_mapWorld (r : Run V U) (p : Played V U) :
    (r.mapWorld f).take (p.mapWorld f) = (r.take p).mapWorld f := by
  match hp : p.activity.phase, hf : r.future with
  | .waiting, _ | .fanned, _ | .working _, _ => simp [take, mapWorld, Played.mapWorld, hp]
  | .ended ms lines none, _ :: _ | .ended ms lines none, [] | .ended ms lines (some e), _ =>
    simp [take, advance, mapWorld, Played.mapWorld, hp, hf, entry]

theorem cancel_mapWorld (r : Run V U) (reason : String) :
    (r.mapWorld f).cancel reason = (r.cancel reason).mapWorld f := by
  obtain ⟨now, cancelled, _, _, _, _, _, _, _⟩ := r
  cases cancelled <;> rfl

variable (h : R.Projects f S)

include h

theorem step_mapWorld (r : Run V U) (move : Move) :
    (r.mapWorld f).step ⟨S, vars⟩ move = (r.step ⟨R, vars⟩ move).map (mapWorld f) := by
  obtain ⟨now, cancelled, v, results, past, present, future, verdict, trace⟩ := r
  cases verdict with
  | some _ => rfl
  | none =>
    cases move with
    | cancel reason => exact congrArg some (cancel_mapWorld _ reason)
    | tick ms => by_cases hms : now < ms <;> simp [step, mapWorld, hms]
    | stage position x draw =>
      cases present with
      | none => rfl
      | some a =>
        simp only [step, mapWorld, Option.bind_some, Activity.step_mapWorld h, Option.map_map]
        exact congrArg (Option.map · _) (funext (take_mapWorld ⟨now, cancelled, v, _, _, _, _, _, _⟩))

/-- The same moves make the same run, but for what is kept in the larger world. -/
theorem moved_mapWorld (r : Run V U) (moves : List Move) :
    (r.mapWorld f).moved ⟨S, vars⟩ moves = (r.moved ⟨R, vars⟩ moves).map (mapWorld f) := by
  induction moves generalizing r with
  | nil => rfl
  | cons move moves ih =>
    show ((r.mapWorld f).step ⟨S, vars⟩ move).bind (fun q => q.moved ⟨S, vars⟩ moves) =
      ((r.step ⟨R, vars⟩ move).bind fun q => q.moved ⟨R, vars⟩ moves).map (mapWorld f)
    rw [step_mapWorld h]
    cases r.step ⟨R, vars⟩ move with
    | none => rfl
    | some q => exact ih q

end Run

end StageTree
