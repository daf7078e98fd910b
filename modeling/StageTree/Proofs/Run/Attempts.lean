import StageTree.Proofs.Pipeline.Paths
import StageTree.Proofs.Process.Variables
import StageTree.Proofs.Run.Journal
import StageTree.Proofs.Run.Projected
import StageTree.Run.Launch

/-! The attempts that are made in a run. A backend that carries out plans can keep its attempts in its world, which
changes nothing in a run. Each attempt is made at the unit of a stage of the pipeline, and follows the plan of that
unit. -/

namespace StageTree

variable {B C M X : Type}

/-! ### Backends in a larger world -/

/-- A backend that does in a part of its world what another one does. -/
structure Backend.Projects (f : B → C) (b : Backend B X) (c : Backend C X) : Prop where
  start : ∀ unit now w, c.start unit now (f w) = (b.start unit now w).map f id
  look : ∀ x now w, c.look x now (f w) = (b.look x now w).map f id
  drop : ∀ x w, c.drop x (f w) = f (b.drop x w)

namespace RetryPolicy

variable {f : B → C} {b : Backend B X} {c : Backend C X} (p : RetryPolicy) (unit : UnitOfWork) (n : Nat) (l : Look)

theorem retry_mapWorld (failure : UnitFailure) (w : B) :
    (p.retry unit n failure l (f w) : Turn C (Trial X)) = (p.retry unit n failure l w).mapWorld f := by
  unfold retry
  split <;> rfl

theorem settle_mapWorld (r : AttemptResult) (w : B) :
    (p.settle unit n r l (f w) : Turn C (Trial X)) = (p.settle unit n r l w).mapWorld f := by
  cases r with
  | ok outputs => rfl
  | error e =>
    simp only [settle, retry_mapWorld]
    split <;> rfl

theorem attempt_mapWorld (h : b.Projects f c) (w : B) :
    p.attempt c unit n l (f w) = (p.attempt b unit n l w).mapWorld f := by
  unfold attempt
  cases l.cancelled with
  | some reason => rfl
  | none =>
    simp only [h.start]
    rcases b.start unit l.now w with ⟨w', x | r⟩
    · rfl
    · simp only [Prod.map, id, settle_mapWorld]
      rfl

theorem look_mapWorld (h : b.Projects f c) (t : Trial X) (w : B) :
    p.look c t l (f w) = (p.look b t l w).mapWorld f := by
  cases t with
  | attempting unit n deadline x =>
    simp only [look, h.look, h.drop]
    cases l.cancelled with
    | some reason => rfl
    | none =>
      rcases b.look x l.now w with ⟨w', x | r⟩
      · simp only [Prod.map, id, retry_mapWorld, h.drop]
        split <;> rfl
      · exact settle_mapWorld p unit n l r w'
  | resting unit n wakes =>
    simp only [look, attempt_mapWorld p unit _ l h]
    split <;> rfl

end RetryPolicy

theorem Backend.Projects.retrying {f : B → C} {b : Backend B X} {c : Backend C X} (h : b.Projects f c)
    (p : RetryPolicy) : (Runner.retrying p b).Projects f (.retrying p c) where
  start unit l w := p.attempt_mapWorld unit 1 l h w
  look t l w := p.look_mapWorld l h t w

/-! ### The unit of a trial -/

def Trial.unit : Trial X → UnitOfWork
  | attempting unit _ _ _ => unit
  | resting unit _ _ => unit

namespace RetryPolicy

variable {b : Backend B X} {p : RetryPolicy} {unit : UnitOfWork} {n : Nat} {l : Look} {w : B} {t : Trial X}

theorem unit_of_retry {failure : UnitFailure} (h : (p.retry unit n failure l w).progress = .waits t) :
    t.unit = unit := by
  unfold retry at h
  split at h
  · cases h
  · cases h
    rfl

theorem unit_of_settle {r : AttemptResult} (h : (p.settle unit n r l w).progress = .waits t) : t.unit = unit := by
  unfold settle at h
  split at h
  · cases h
  · split at h
    · exact unit_of_retry h
    · cases h

theorem unit_of_attempt (h : (p.attempt b unit n l w).progress = .waits t) : t.unit = unit := by
  unfold attempt at h
  split at h
  · cases h
  · rcases hstart : b.start unit l.now w with ⟨w', x | r⟩
    · rw [hstart] at h
      cases h
      rfl
    · rw [hstart] at h
      exact unit_of_settle h

theorem unit_of_look {u : Trial X} (h : (p.look b u l w).progress = .waits t) : t.unit = u.unit := by
  cases u with
  | attempting unit n deadline x =>
    rw [look] at h
    split at h
    · cases h
    · rcases hlook : b.look x l.now w with ⟨w', x | r⟩
      · simp only [hlook] at h
        split at h
        · exact unit_of_retry h
        · cases h
          rfl
      · simp only [hlook] at h
        exact unit_of_settle h
  | resting unit n wakes =>
    rw [look] at h
    split at h
    · exact unit_of_attempt h
    · cases h
      rfl

end RetryPolicy

/-- Attempts go on being made at the unit that was handed over. -/
theorem Runner.carries_retrying (p : RetryPolicy) (b : Backend B X) : (Runner.retrying p b).Carries Trial.unit where
  start h := RetryPolicy.unit_of_attempt h
  look h := RetryPolicy.unit_of_look h

/-! ### Attempts that are kept -/

/-- The backend of plans, which keeps its attempts in its world. An attempt that hangs is kept with the calls that
clear up after it. -/
def Backend.keeping (p : Programs M) (planOf : UnitOfWork → Plan) : Backend (M × List Attempted) Hanging where
  start unit now w :=
    let (deeds, result) := traced p planOf unit now [] w.1
    let (m, progress) := (planned p planOf).start unit now w.1
    ((m, w.2 ++ [⟨unit, deeds, result⟩]), progress)
  look x now w :=
    let (m, progress) := (planned p planOf).look x now w.1
    ((m, w.2), progress)
  drop x w := ((planned p planOf).drop x w.1, w.2)
  due := (planned p planOf).due

theorem Backend.projects_keeping (p : Programs M) (planOf : UnitOfWork → Plan) :
    (keeping p planOf).Projects Prod.fst (planned p planOf) where
  start _ _ _ := rfl
  look _ _ _ := rfl
  drop _ _ := rfl

/-- What becomes of the list of attempts when a runner is asked about a unit: it stays, or an attempt at the unit is
added, which follows its plan. -/
def Attempted.Adds (planOf : UnitOfWork → Plan) (unit : UnitOfWork) (old new : List Attempted) : Prop :=
  new = old ∨ ∃ a, new = old ++ [a] ∧ a.unit = unit ∧ (planOf a.unit).Course a.deeds a.result

namespace RetryPolicy

variable {p : RetryPolicy} {q : Programs M} {planOf : UnitOfWork → Plan}

theorem world_retry (p : RetryPolicy) (unit : UnitOfWork) (n : Nat) (failure : UnitFailure) (l : Look) (w : B) :
    (p.retry unit n failure l w : Turn B (Trial X)).world = w := by
  unfold retry
  split <;> rfl

theorem world_settle (p : RetryPolicy) (unit : UnitOfWork) (n : Nat) (r : AttemptResult) (l : Look) (w : B) :
    (p.settle unit n r l w : Turn B (Trial X)).world = w := by
  unfold settle
  split
  · rfl
  · split
    · exact world_retry p unit n _ l w
    · rfl

theorem adds_attempt (unit : UnitOfWork) (n : Nat) (l : Look) (w : M × List Attempted) :
    Attempted.Adds planOf unit w.2 (p.attempt (.keeping q planOf) unit n l w).world.2 := by
  unfold attempt
  cases l.cancelled with
  | some reason => exact .inl rfl
  | none =>
    have hcourse := Backend.course_traced q planOf unit l.now [] w.1
    refine .inr ⟨⟨unit, _, _⟩, ?_, rfl, hcourse⟩
    rcases hstart : (Backend.keeping q planOf).start unit l.now w with ⟨w', x | r⟩
    · exact congrArg (fun b => b.1.2) hstart.symm
    · exact (congrArg Prod.snd (world_settle p unit n r l w')).trans (congrArg (fun b => b.1.2) hstart.symm)

theorem adds_look (t : Trial Hanging) (l : Look) (w : M × List Attempted) :
    Attempted.Adds planOf t.unit w.2 (p.look (.keeping q planOf) t l w).world.2 := by
  cases t with
  | attempting unit n deadline x =>
    refine .inl ?_
    rw [look]
    cases l.cancelled with
    | some reason => rfl
    | none =>
      simp only [Backend.keeping, Backend.planned]
      split
      · rw [world_retry]
      · rfl
  | resting unit n wakes =>
    rw [look]
    split
    · exact adds_attempt unit (n + 1) l w
    · exact .inl rfl

end RetryPolicy

def Config.keeping (c : Config) (programs : Programs M) (vars : Bindings) :
    Setting (M × List Attempted) (Trial Hanging) :=
  ⟨.retrying c.retry (.keeping programs (.ofUnit c.backend)), vars⟩

section

variable {c : Config} {programs : Programs M} {vars : Bindings}

/-- A stage asks only about its own unit. -/
theorem Activity.Acted.adds {m : Moment} {w : M × List Attempted} {a : Activity (Trial Hanging)} {x : Act}
    {p : Played (M × List Attempted) (Trial Hanging)} (h : Acted (c.keeping programs vars) m w a x p)
    (ha : a.Carries Trial.unit vars) :
    Attempted.Adds (.ofUnit c.backend) (.ofStage a.stage vars) w.2 p.world.2 := by
  let live : List String → Bool := fun _ => m.scope.isNone
  have hasked := h.asked (show live m.path = m.scope.isNone from rfl)
  generalize p.trace.filterMap (Entry.remark? live) = heard, p.world = w' at hasked ⊢
  cases hasked with
  | silent => exact .inl rfl
  | submitted ht => exact ht ▸ RetryPolicy.adds_attempt _ 1 m.look w
  | looked hphase ht => exact ht ▸ ha _ hphase ▸ RetryPolicy.adds_look _ m.look w

/-- An attempt at the unit of a stage of a pipeline, by the plan of the unit. -/
structure Attempted.At (a : Attempted) (c : Config) (vars : Bindings) (p : Pipeline) : Prop where
  stage : ∃ path s, (path, s) ∈ p.preorder ∧ a.unit = .ofStage s vars
  course : (Plan.ofUnit c.backend a.unit).Course a.deeds a.result

namespace Run

variable {p : Pipeline} {m : M} {moves : List Move}

/-- Whatever attempt is made in a run is made at the unit of a stage. -/
theorem attempts_of_moved (hp : p.Proper) {r : Run (M × List Attempted) (Trial Hanging)}
    (h : (begin p (m, [])).moved (c.keeping programs vars) moves = some r) :
    ∀ a ∈ r.world.2, a.At c vars p := by
  refine moved_induction (P := fun _ r => ∀ a ∈ r.world.2, a.At c vars p) ?_
    (fun before q move q' hq ih hstep => ?_) h
  · obtain ⟨st, future, _, e⟩ := exists_begin_eq (U := Trial Hanging) hp (m, ([] : List Attempted))
    rw [e]
    exact fun a ha => absurd ha List.not_mem_nil
  · have hs := sound_of_moved hp hq
    rcases (moved_of_step hstep).2.exists_acted hs hp with ⟨_, hworld⟩ | ⟨n, _, x, q₁, _, hn, hact, _, ⟨_, hworld⟩, _⟩
    · rwa [hworld]
    · have hcarries := (throughout_of_moved hp (Activity.persistent_carries (Runner.carries_retrying _ _)) hq).of_at?
        hs hp hn
      have hstage := hp.find?_eq_some_iff.1 (hs.find?_eq hp hn)
      rw [hworld]
      rcases hact.adds hcarries with hsame | ⟨a, hadd, hunit, hcourse⟩
      · rwa [hsame]
      · rw [hadd]
        refine List.forall_mem_append.2 ⟨ih, List.forall_mem_singleton.2 ⟨⟨_, _, hstage, hunit⟩, hcourse⟩⟩

/-- To keep the attempts changes nothing in a run. -/
theorem moved_keeping_attempts {r : Run M (Trial Hanging)}
    (h : (begin p m).moved (c.setting programs vars) moves = some r) : ∃ attempts,
      (begin p (m, [])).moved (c.keeping programs vars) moves = some { r with world := (r.world, attempts) } := by
  have hmap : (begin p m).moved (c.setting programs vars) moves =
      ((begin p (m, [])).moved (c.keeping programs vars) moves).map (mapWorld Prod.fst) := by
    have hprojects := (Backend.projects_keeping programs (.ofUnit c.backend)).retrying c.retry
    rw [show begin p m = _ from begin_mapWorld (f := Prod.fst) p (m, ([] : List Attempted))]
    exact moved_mapWorld hprojects _ moves
  obtain ⟨q, hq, rfl⟩ := Option.map_eq_some_iff.1 (hmap.symm.trans h)
  exact ⟨q.world.2, hq⟩

end Run

end

end StageTree
