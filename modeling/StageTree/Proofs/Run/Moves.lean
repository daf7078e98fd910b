import StageTree.Proofs.Activity.Marks
import StageTree.Proofs.Moves
import StageTree.Run.Basic
import StageTree.Unit.Scripted

/-! Runs as moves one after the other, in any order in which they are possible. The stages of a run are
those of its pipeline: the ones that have ended, the one at work and those to come. What a step keeps, a
run keeps. -/

namespace StageTree.Run

variable {W U : Type} {s : Setting W U} {r r' : Run W U} {p : Pipeline} {w : W}

def moved (s : Setting W U) (r : Run W U) (moves : List Move) : Option (Run W U) := moves.foldlM (step s) r

/-- What a step keeps holds after any moves. -/
theorem moved_invariant {P : Run W U → Prop} {moves : List Move}
    (hstep : ∀ r r' move, move ∈ moves → P r → r.step s move = some r' → P r') (h : P r)
    (hr : r.moved s moves = some r') : P r' := by
  induction moves generalizing r with
  | nil => exact Option.some.inj hr ▸ h
  | cons move moves ih =>
    obtain ⟨q, hq, hr⟩ := Option.bind_eq_some_iff.1 (by simpa [moved] using hr)
    exact ih (fun r r' m hm => hstep r r' m (List.mem_cons_of_mem _ hm))
      (hstep r q move List.mem_cons_self h hq) hr

theorem moved_append {moves more : List Move} :
    r.moved s (moves ++ more) = (r.moved s moves).bind fun q => q.moved s more := by
  rw [moved, List.foldlM_append]
  rfl

theorem moved_concat {before : List Move} {move : Move} {q : Run W U} (hq : r.moved s before = some q)
    (hstep : q.step s move = some r') : r.moved s (before ++ [move]) = some r' := by
  rw [moved_append, hq, Option.bind_some]
  simpa [moved] using hstep

/-- What holds at first, and after a move if it held before, holds after any moves. It may tell of the moves. -/
theorem moved_induction {P : List Move → Run W U → Prop} {moves : List Move} (nil : P [] r)
    (step : ∀ before q move q', r.moved s before = some q → P before q → q.step s move = some q' →
      P (before ++ [move]) q')
    (h : r.moved s moves = some r') : P moves r' :=
  foldlM_induction nil (fun before move q q' => step before q move q') h

/-- What a move makes of a run. -/
inductive Moved (s : Setting W U) (r : Run W U) : Move → Run W U → Prop
  | stage {a : Activity U} {p : Played W U} {position : List Nat} {x : Act} {draw : Nat}
      (ha : r.present = some a) (h : a.step s x position (r.moment a draw) r.world = some p) :
      Moved s r (.stage position x draw) (r.take p)
  | cancel (reason : String) : Moved s r (.cancel reason) (r.cancel reason)
  | tick {ms : Nat} (h : r.now < ms) : Moved s r (.tick ms) { r with now := ms }

theorem moved_of_step {move : Move} (h : r.step s move = some r') :
    r.verdict = none ∧ Moved s r move r' := by
  cases hv : r.verdict with
  | some v => simp [step, hv] at h
  | none =>
    refine ⟨rfl, ?_⟩
    cases move with
    | stage position x draw =>
      simp only [step, hv, Option.bind_eq_some_iff, Option.map_eq_some_iff] at h
      obtain ⟨a, ha, p, hp, rfl⟩ := h
      exact .stage ha hp
    | cancel reason =>
      simp only [step, hv, Option.some.injEq] at h
      exact h ▸ .cancel reason
    | tick ms =>
      have e : r.step s (.tick ms) = if r.now < ms then some { r with now := ms } else none := by
        simp [step, hv]
      rw [e] at h
      split at h
      · rename_i hlt
        exact Option.some.inj h ▸ .tick hlt
      · cases h

theorem step_stage {a : Activity U} {q : Played W U} {position : List Nat} {x : Act} {draw : Nat}
    (hv : r.verdict = none) (ha : r.present = some a)
    (hq : a.step s x position (r.moment a draw) r.world = some q) :
    r.step s (.stage position x draw) = some (r.take q) := by
  simp [step, hv, ha, hq]

theorem step_cancel (reason : String) (hv : r.verdict = none) :
    r.step s (.cancel reason) = some (r.cancel reason) := by
  simp [step, hv]

theorem step_tick {ms : Nat} (hv : r.verdict = none) (hlt : r.now < ms) :
    r.step s (.tick ms) = some { r with now := ms } := by
  simp [step, hv, hlt]

/-- What becomes of a run whose stage at work went on: the stage is still at work, or it has ended and
the next one is there, or the run is over. -/
inductive Taking (r : Run W U) (p : Played W U) : Run W U → Prop
  | on (h : p.activity.hasEnded = false) :
      Taking r p { r with
        world := p.world, trace := r.trace ++ p.trace, present := some p.activity }
  | next {ms : Nat} {lines : Option (List String)} {st : Stage} {future : List Stage}
      (h : p.activity.phase = .ended ms lines none) (hf : r.future = st :: future) :
      Taking r p { r with
        world := p.world, trace := r.trace ++ p.trace, results := p.activity.mergeInto r.results,
        past := r.past ++ [p.activity], present := some (.ofStage st), future := future }
  | completed {ms : Nat} {lines : Option (List String)} (h : p.activity.phase = .ended ms lines none)
      (hf : r.future = []) :
      Taking r p { r with
        world := p.world, trace := r.trace ++ p.trace ++ [r.entry .runCompleted],
        results := p.activity.mergeInto r.results, past := r.past ++ [p.activity], present := none,
        verdict := some none }
  | failed {ms : Nat} {lines : Option (List String)} {e : RunError}
      (h : p.activity.phase = .ended ms lines (some e)) :
      Taking r p { r with
        world := p.world, trace := r.trace ++ p.trace ++ [r.entry (.runFailed p.activity.stage.name e)],
        results := p.activity.mergeInto r.results, past := r.past ++ [p.activity], present := none,
        verdict := some (some e) }

theorem taking_take (r : Run W U) (p : Played W U) : Taking r p (r.take p) := by
  match hp : p.activity.phase with
  | .ended ms lines none =>
    match hf : r.future with
    | [] =>
      have h := Taking.completed hp hf
      simpa [take, advance, hp, hf, entry] using h
    | st :: future =>
      have h := Taking.next hp hf
      simpa [take, advance, hp, hf] using h
  | .ended ms lines (some e) =>
    have h := Taking.failed (r := r) hp
    simpa [take, hp, entry] using h
  | .waiting | .fanned | .working _ =>
    have h : p.activity.hasEnded = false := by simp [Activity.hasEnded, hp]
    simpa [take, hp] using Taking.on (r := r) h

theorem take_cancelled (r : Run W U) (q : Played W U) : (r.take q).cancelled = r.cancelled := by
  have htaking := taking_take r q
  generalize r.take q = r' at htaking ⊢
  cases htaking <;> rfl

/-- What holds of stages that have not started holds of all trees of a run, if it holds of those that have
ended and of the one that went on. -/
theorem forall_take {P : Activity U → Prop} (ofStage : ∀ st, P (.ofStage st)) {q : Played W U}
    (past : ∀ a ∈ r.past, P a) (hq : P q.activity) :
    ∀ a ∈ (r.take q).past ++ (r.take q).present.toList, P a := by
  have hpast : ∀ a ∈ r.past ++ [q.activity], P a := List.forall_mem_append.2 ⟨past, by simpa using hq⟩
  have htaking := taking_take r q
  generalize r.take q = r' at htaking ⊢
  cases htaking with
  | on => exact hpast
  | @next ms lines st future => exact List.forall_mem_append.2 ⟨hpast, by simpa using ofStage st⟩
  | completed | failed => exact List.forall_mem_append.2 ⟨hpast, by simp⟩

/-- A run between its beginning and its end, over the stages of a pipeline. -/
structure Sound (p : Pipeline) (r : Run W U) : Prop where
  past : ∀ a ∈ r.past, a.Sound ∧ a.hasEnded = true
  present : ∀ a, r.present = some a → a.Sound ∧ a.hasEnded = false
  stages : r.past.map Activity.stage ++ (r.present.map Activity.stage).toList ++ r.future = p.stages
  going : r.verdict = none ↔ r.present.isSome
  error : ∀ a ∈ r.past, ∀ e, a.error? = some e → r.verdict = some (some e)
  verdict : ∀ e, r.verdict = some (some e) → ∃ front a, r.past = front ++ [a] ∧ a.error? = some e
  future : r.verdict = some none → r.future = []
  results : r.results = r.past.foldl (fun results a => a.mergeInto results) .empty

/-- At the beginning of a run the first stage of the pipeline is at work. -/
theorem exists_begin_eq (hp : p.Proper) (w : W) : ∃ st future, p.stages = st :: future ∧
    (begin p w : Run W U) =
      { world := w, future := future, present := some (.ofStage st),
        trace := [⟨0, [], .runStarted p.stageCount⟩] } := by
  obtain ⟨st, future, hs⟩ := List.exists_cons_of_ne_nil hp.stages
  exact ⟨st, future, hs, by simp [begin, advance, hs]⟩

theorem sound_begin (hp : p.Proper) (w : W) : (begin p w : Run W U).Sound p := by
  obtain ⟨st, future, hs, e⟩ := exists_begin_eq (U := U) hp w
  have hst : st.Proper := hp.members st (by simp [hs])
  rw [e]
  exact
    { past := by simp
      present := fun a ha => by
        obtain rfl := Option.some.inj ha
        exact ⟨Activity.sound_ofStage hst, rfl⟩
      stages := by simp [hs, Activity.ofStage]
      going := by simp
      error := by simp
      verdict := by simp
      future := by simp
      results := rfl }

namespace Sound

/-- The stage at work goes on as a stage of its tree does. -/
theorem stepped (h : r.Sound p) {a : Activity U} {q : Played W U} {position : List Nat} {x : Act}
    {m : Moment} (ha : r.present = some a) (hq : a.step s x position m r.world = some q) :
    Activity.Stepped s x a m r.world q :=
  (h.present a ha).1.stepped hq

theorem take (h : r.Sound p) (hp : p.Proper) {a : Activity U} {q : Played W U} {m : Moment} {x : Act}
    (ha : r.present = some a) (hq : Activity.Stepped s x a m r.world q) : (r.take q).Sound p := by
  have hs : q.activity.Sound := hq.sound (h.present a ha).1
  have hv : r.verdict = none := h.going.2 (by simp [ha])
  have hstages := h.stages
  rw [ha, Option.map_some, Option.toList_some, ← hq.stage_eq] at hstages
  have hpast : ∀ b ∈ r.past, b.error? = none := fun b hb => by
    cases he : b.error? with
    | none => rfl
    | some e => exact absurd (h.error b hb e he) (by simp [hv])
  have past (he : q.activity.hasEnded = true) :
      ∀ b ∈ r.past ++ [q.activity], b.Sound ∧ b.hasEnded = true := fun b hb => by
    rcases List.mem_append.1 hb with hb | hb
    · exact h.past b hb
    · obtain rfl := List.mem_singleton.1 hb
      exact ⟨hs, he⟩
  have error {ms : Nat} {lines : Option (List String)} {error : Option RunError}
      (he : q.activity.phase = .ended ms lines error) :
      ∀ b ∈ r.past ++ [q.activity], ∀ e, b.error? = some e → error = some e := fun b hb e hbe => by
    rcases List.mem_append.1 hb with hb | hb
    · rw [hpast b hb] at hbe
      cases hbe
    · obtain rfl := List.mem_singleton.1 hb
      rwa [Activity.error?_of_phase he] at hbe
  have htaking := taking_take r q
  generalize r.take q = r' at htaking ⊢
  have results : q.activity.mergeInto r.results =
      (r.past ++ [q.activity]).foldl (fun results a => a.mergeInto results) .empty := by
    rw [h.results, List.foldl_append, List.foldl_cons, List.foldl_nil]
  cases htaking with
  | on hn =>
    exact
      { h with
        present := fun b hb => by
          obtain rfl := Option.some.inj hb
          exact ⟨hs, hn⟩
        stages := by simpa using hstages
        going := by simp [hv] }
  | @next ms lines st future he hf =>
    have hst : st.Proper := hp.members st (by rw [← hstages, hf]; simp)
    exact
      { past := past (Activity.hasEnded_of_phase he)
        present := fun b hb => by
          obtain rfl := Option.some.inj hb
          exact ⟨Activity.sound_ofStage hst, rfl⟩
        stages := by simpa [hf, Activity.ofStage] using hstages
        going := by simp [hv]
        error := fun b hb e hbe => by simpa using error he b hb e hbe
        verdict := by simp [hv]
        future := by simp [hv]
        results }
  | completed he hf =>
    exact
      { past := past (Activity.hasEnded_of_phase he)
        present := by simp
        stages := by simpa [hf] using hstages
        going := by simp
        error := fun b hb e hbe => by simpa using error he b hb e hbe
        verdict := by simp
        future := fun _ => hf
        results }
  | failed he =>
    exact
      { past := past (Activity.hasEnded_of_phase he)
        present := by simp
        stages := by simpa using hstages
        going := by simp
        error := fun b hb e hbe => by rw [error he b hb e hbe]
        verdict := fun e hv => by
          refine ⟨_, _, rfl, ?_⟩
          rw [Activity.error?_of_phase he]
          exact Option.some.inj hv
        future := by simp
        results }

theorem cancel (h : r.Sound p) (reason : String) : (r.cancel reason).Sound p := by
  rw [Run.cancel]
  split
  · exact h
  · exact
      { h with
        present := fun b hb => by
          obtain ⟨a, ha, rfl⟩ := Option.map_eq_some_iff.1 hb
          exact ⟨Activity.Sound.cancel (h.present a ha).1 reason, by simpa using (h.present a ha).2⟩
        stages := by
          have hstages := h.stages
          simpa [Option.map_map, Function.comp_def] using hstages
        going := by simpa using h.going }

theorem moved (h : r.Sound p) (hp : p.Proper) {move : Move} (hm : Moved s r move r') : r'.Sound p := by
  cases hm with
  | stage ha hq => exact h.take hp ha (h.stepped ha hq)
  | cancel reason => exact h.cancel reason
  | tick hlt => exact { h with }

end Sound

/-- Every run that moves from the beginning of a pipeline that keeps the rules is sound. -/
theorem sound_of_moved (hp : p.Proper) {moves : List Move}
    (h : (begin p w).moved s moves = some r) : r.Sound p :=
  moved_invariant (P := Sound p) (fun _ _ _ _ hr hs => hr.moved hp (moved_of_step hs).2)
    (sound_begin hp w) h

/-- A property of all stages of a run that are there, the ones at the top and those below them. -/
def Throughout (P : Activity U → Prop) (r : Run W U) : Prop := ∀ a ∈ r.past ++ r.present.toList, a.Everywhere P

theorem Throughout.moved {P : Activity U → Prop} (h : r.Throughout P) (hP : Activity.Persistent s P)
    (hs : r.Sound p) {move : Move} (hm : Moved s r move r') : r'.Throughout P := by
  cases hm with
  | @stage a q position x draw ha hq =>
    have htree := hP.stepped (hs.stepped ha hq) (hs.present a ha).1 (h a (by simp [ha]))
    exact forall_take hP.everywhere_ofStage (fun b hb => h b (List.mem_append_left _ hb)) htree
  | cancel reason =>
    rw [Run.cancel]
    split
    · exact h
    · intro a ha
      rcases List.mem_append.1 ha with ha | ha
      · exact h a (List.mem_append_left _ ha)
      · obtain ⟨b, hb, rfl⟩ := Option.map_eq_some_iff.1 (Option.mem_toList.1 ha)
        exact hP.cancel reason (h b (by simp [hb]))
  | tick => exact h

/-- What acts keep holds throughout every run. -/
theorem throughout_of_moved {P : Activity U → Prop} (hp : p.Proper) (hP : Activity.Persistent s P)
    {moves : List Move} (h : (begin p w).moved s moves = some r) : r.Throughout P := by
  refine moved_induction (P := fun _ r => r.Throughout P) ?_
    (fun _ _ _ _ hq hthrough hstep => hthrough.moved hP (sound_of_moved hp hq) (moved_of_step hstep).2) h
  obtain ⟨st, future, _, e⟩ := exists_begin_eq (U := U) hp w
  rw [e]
  intro a ha
  obtain rfl : a = .ofStage st := by simpa using ha
  exact hP.everywhere_ofStage st

/-! ### Marks -/

/-- The stages of a run that have ended or are at work, with all below them, each with its path. -/
def nodes (r : Run W U) : List (List String × Activity U) :=
  Activity.nodesBelow [] (r.past ++ r.present.toList)

def marks (r : Run W U) : List Mark := r.nodes.flatMap fun n => n.2.held n.1

theorem marks_eq (r : Run W U) :
    r.marks = (r.past ++ r.present.toList).flatMap fun a => a.marks [a.stage.name] := by
  rw [marks, nodes, Activity.nodesBelow_eq_flatMap, List.flatMap_assoc]
  rfl

/-- The marks in the trace of a run are those that its stages hold. -/
def Marked (r : Run W U) : Prop := (r.trace.filterMap Entry.mark?).Perm r.marks

theorem marked_begin (p : Pipeline) (w : W) : (begin p w : Run W U).Marked := by
  rw [Marked, begin, advance]
  cases p.stages <;> simp [marks_eq, Entry.mark?, entry]

theorem Marked.take (h : r.Marked) {a : Activity U} {q : Played W U} {x : Act} {draw : Nat}
    (ha : r.present = some a) (hs : a.Sound)
    (hq : Activity.Stepped s x a (r.moment a draw) r.world q) : (r.take q).Marked := by
  have hperm : ((r.trace ++ q.trace).filterMap Entry.mark?).Perm
      ((r.past ++ [q.activity]).flatMap fun a => a.marks [a.stage.name]) := by
    have hq' := hq.marks_perm hs
    rw [Marked, marks_eq, ha, Option.toList_some, List.flatMap_append, List.flatMap_singleton] at h
    rw [List.filterMap_append, List.flatMap_append, List.flatMap_singleton, hq.stage_eq]
    refine (h.append_right _).trans ?_
    rw [List.append_assoc]
    exact (List.perm_append_comm.trans hq'.symm).append_left _
  have htaking := taking_take r q
  generalize r.take q = r' at htaking ⊢
  cases htaking with
  | on hn => simpa [Marked, marks_eq] using hperm
  | next he hf => simpa [Marked, marks_eq] using hperm
  | completed he hf => simpa [Marked, marks_eq, List.filterMap_cons, Entry.mark?, entry] using hperm
  | failed he => simpa [Marked, marks_eq, List.filterMap_cons, Entry.mark?, entry] using hperm

theorem Marked.cancel (h : r.Marked) (reason : String) : (r.cancel reason).Marked := by
  rw [Run.cancel]
  split
  · exact h
  · rw [Marked, marks_eq] at h ⊢
    cases hp : r.present with
    | none => simpa [hp] using h
    | some a => simpa [hp] using h

theorem marked_of_moved (hp : p.Proper) {moves : List Move} (h : (begin p w).moved s moves = some r) :
    r.Marked := by
  refine (moved_invariant (P := fun r => r.Sound p ∧ r.Marked) (fun q q' move _ ⟨hs, hm⟩ hstep => ?_)
    ⟨sound_begin hp w, marked_begin p w⟩ h).2
  obtain ⟨_, hmoved⟩ := moved_of_step hstep
  refine ⟨hs.moved hp hmoved, ?_⟩
  cases hmoved with
  | stage ha hq => exact hm.take ha (hs.present _ ha).1 (hs.stepped ha hq)
  | cancel reason => exact hm.cancel reason
  | tick hlt => exact hm

/-! ### A small run -/

/-- A unit that fails after two milliseconds, and others that return after one. -/
def forkScript (name : String) : Script :=
  if name = "a" then { delayMs := 2, failure := some "no" } else { delayMs := 1 }

def forkSetting : Setting Journal Asleep := ⟨.scripted forkScript, .empty⟩

/-- A run of two branches up to its end: the second branch starts and ends before the first one. -/
def forkMoves : List Move :=
  [.stage [] .start 0, .stage [1] .start 0, .stage [0] .start 0, .tick 1, .stage [1] .look 0,
    .stage [] (.join 1) 0, .tick 2, .stage [0] .look 0, .stage [] (.join 0) 0]

end StageTree.Run
