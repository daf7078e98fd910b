import StageTree.Proofs.Activity.Coherent
import StageTree.Proofs.Unit.Laws

/-! The errors of stages. A stage ends with an error that its unit returned, with that of a branch, or with a
cancellation. So no stage ends with an error that would have turned the run away before it began. -/

namespace StageTree

variable {W U B X : Type}

/-- Whether an error turns a run away before it begins. -/
def RunError.isRejection : RunError → Bool
  | parse _ | validation _ | config _ => true
  | unit _ | cancelled _ _ | internal _ => false

/-- A look at a runner that returns no error which would have turned the run away. -/
def Turn.Plain (t : Turn W U) : Prop := ∀ e, t.progress = .returns (.error e) → e.isRejection = false

/-- A runner that returns no such error whenever it is looked at. -/
structure Runner.Plain (R : Runner W U) : Prop where
  start : ∀ unit l w, (R.start unit l w).Plain
  look : ∀ u l w, (R.look u l w).Plain

namespace Script

theorem finish_plain (s : Script) (unit : UnitOfWork) (j : Journal) : (s.finish unit j).Plain := by
  intro e h
  rw [finish] at h
  split at h
  · simp only [Progress.returns.injEq, Except.error.injEq] at h
    rw [← h]
    rfl
  · simp at h

theorem plain (scriptOf : String → Script) : (Runner.scripted scriptOf).Plain where
  start unit l w e h := by
    simp only [Runner.scripted, start] at h
    split at h
    · cases h
      rfl
    · split at h
      · exact finish_plain _ _ _ e h
      · cases h
  look u l w e h := by
    simp only [Runner.scripted, look] at h
    split at h
    · cases h
      rfl
    · split at h
      · exact finish_plain _ _ _ e h
      · cases h

end Script

namespace RetryPolicy

variable (p : RetryPolicy) (unit : UnitOfWork) (n : Nat) (l : Look) (b : B)

theorem retry_plain (f : UnitFailure) : (p.retry unit n f l b : Turn B (Trial X)).Plain := by
  intro e h
  rw [retry] at h
  split at h
  · simp only [Progress.returns.injEq, Except.error.injEq] at h
    rw [← h]
    rfl
  · cases h

theorem settle_plain (r : AttemptResult) : (p.settle unit n r l b : Turn B (Trial X)).Plain := by
  intro e h
  cases r with
  | ok outputs => cases h
  | error error =>
    rw [settle] at h
    split at h
    · exact retry_plain p unit n l b _ e h
    · simp only [Progress.returns.injEq, Except.error.injEq] at h
      rw [← h]
      rfl

theorem attempt_plain (backend : Backend B X) : (p.attempt backend unit n l b).Plain := by
  intro e h
  rw [attempt] at h
  split at h
  · cases h
    rfl
  · simp only at h
    split at h
    · exact settle_plain p unit n l _ _ e h
    · cases h

theorem plain (backend : Backend B X) : (Runner.retrying p backend).Plain where
  start unit l w := attempt_plain p unit 1 l w backend
  look u l w e h := by
    cases u with
    | attempting unit n deadline x =>
      simp only [Runner.retrying, look] at h
      split at h
      · cases h
        rfl
      · split at h
        · exact settle_plain p unit n l _ _ e h
        · split at h
          · exact retry_plain p unit n l _ _ e h
          · cases h
    | resting unit n wakes =>
      simp only [Runner.retrying, look] at h
      split at h
      · exact attempt_plain p unit (n + 1) l w backend e h
      · cases h

end RetryPolicy

theorem Runner.Provided.plain {R : Runner W U} (h : R.Provided) : R.Plain := by
  cases h with
  | scripted scriptOf => exact Script.plain scriptOf
  | retrying p backend => exact RetryPolicy.plain p backend

namespace Activity

/-- A stage that has not ended with an error which would have turned the run away. -/
def Plain (a : Activity U) : Prop := ∀ e, a.error? = some e → e.isRejection = false

theorem plain_of_not_hasEnded {a : Activity U} (h : a.hasEnded = false) : a.Plain := fun e he => by
  rw [hasEnded_of_error? he] at h
  cases h

section Steps

variable {s : Setting W U} {m : Moment} {w : W} {a : Activity U} {x : Act} {p : Played W U}

theorem Taken.plain {since : Nat} {t : Turn W U} {phase : Phase U} {w' : W} {trace : List Entry}
    (h : Taken m since t phase w' trace) (ht : t.Plain) : Plain { a with phase := phase } := by
  cases h with
  | waits w notes u => exact plain_of_not_hasEnded rfl
  | returns w notes r =>
    cases r with
    | ok lines =>
      intro e he
      cases he
    | error error =>
      intro e he
      obtain rfl : error = e := Option.some.inj he
      exact ht error rfl

theorem Onward.plain {since : Nat} {stage : Stage} {phase : Phase U} {w' : W} {trace : List Entry}
    (h : Onward s m stage since w phase w' trace) (hr : s.runner.Plain) : Plain { a with phase := phase } := by
  cases h with
  | idle =>
    intro e he
    cases he
  | unit _ ht => exact ht.plain (hr.start _ _ _)

/-- The error of a group is that of a branch. -/
theorem plain_of_error {f : Fan} {bs : List (Activity U)} (hf : f.Faithful bs) (hbs : ∀ b ∈ bs, b.Plain)
    {e : RunError} (he : f.join.error = some e) : e.isRejection = false := by
  rw [hf.error_eq] at he
  obtain ⟨r, hr, hre⟩ := List.mem_map.1 (Join.mem_of_foldl_firstError he)
  obtain ⟨b, hb, _, hrb⟩ := hf.report r hr
  refine hbs b (List.mem_of_getElem? hb) e ?_
  rw [hrb] at hre
  exact hre

theorem Acted.plain (h : Acted s m w a x p) (hr : s.runner.Plain) (ha : a.Coherent) (hbs : ∀ b ∈ a.branches, b.Plain) :
    p.activity.Plain := by
  cases h with
  | refused =>
    intro e he
    obtain rfl := Option.some.inj he
    rfl
  | fanned => exact plain_of_not_hasEnded rfl
  | begun _ _ _ ho => exact ho.plain (a := { a with since := m.now }) hr
  | looked _ ht => exact ht.plain (hr.look _ _ _)
  | joined hp => exact plain_of_not_hasEnded (by simp [hasEnded, hp])
  | @failed i ms f b lines error e hp hf hb he hj hl hje =>
    intro e' he'
    obtain rfl : e = e' := Option.some.inj he'
    exact plain_of_error (ha.faithful_joining hf hb he hj) hbs hje
  | gathered _ _ _ _ _ _ _ ho => exact ho.plain (a := a) hr

theorem persistent_plain (hr : s.runner.Plain) : Persistent s (Plain (U := U)) where
  congr {a b} _ hp h e he := h e (by rw [error?, ← hp]; exact he)
  ofStage _ := plain_of_not_hasEnded rfl
  acted h ha hp := h.plain hr ha.here fun _ hb => (hp.branch hb).here

end Steps

end Activity

end StageTree
