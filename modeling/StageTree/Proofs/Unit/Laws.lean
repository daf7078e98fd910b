import Mathlib.Order.Lattice
import StageTree.Backend.Rehearsed
import StageTree.Process.Plan
import StageTree.Unit.Retrying
import StageTree.Unit.Scripted

/-! What the runners of units keep to, whatever their scripts, policies and backends are. -/

namespace StageTree

variable {W U B X : Type}

namespace Runner

/-- The runners there are: one that follows scripts, and one that makes attempts through a backend. -/
inductive Provided : {W U : Type} → Runner W U → Prop
  | scripted (scriptOf : String → Script) : Provided (.scripted scriptOf)
  | retrying {B X : Type} (p : RetryPolicy) (backend : Backend B X) : Provided (.retrying p backend)

/-- A runner that returns a cancellation only when it is looked at under a cancelled scope. -/
structure Honest (R : Runner W U) : Prop where
  start : ∀ unit l w e, (R.start unit l w).progress = .returns (.error e) → e.isCancellation = true →
    l.cancelled.isSome = true
  look : ∀ u l w e, (R.look u l w).progress = .returns (.error e) → e.isCancellation = true →
    l.cancelled.isSome = true

end Runner

namespace Script

theorem finish_error {s : Script} {unit : UnitOfWork} {j : Journal} {e : RunError}
    (h : (s.finish unit j).progress = .returns (.error e)) : e.isCancellation = false := by
  rw [finish] at h
  split at h
  · simp only [Progress.returns.injEq, Except.error.injEq] at h
    rw [← h]
    rfl
  · simp at h

theorem honest (scriptOf : String → Script) : (Runner.scripted scriptOf).Honest where
  start unit l w e h he := by
    cases hl : l.cancelled with
    | some reason => rfl
    | none =>
      simp only [Runner.scripted, start, hl] at h
      split at h
      · rw [finish_error h] at he
        cases he
      · cases h
  look u l w e h he := by
    cases hl : l.cancelled with
    | some reason => rfl
    | none =>
      simp only [Runner.scripted, look, hl] at h
      split at h
      · rw [finish_error h] at he
        cases he
      · cases h

end Script

namespace RetryPolicy

variable {p : RetryPolicy} {unit : UnitOfWork} {n : Nat} {l : Look} {b : B} {e : RunError}

theorem retry_error {f : UnitFailure} (h : (p.retry unit n f l b : Turn B (Trial X)).progress = .returns (.error e)) :
    e.isCancellation = false := by
  rw [retry] at h
  split at h
  · simp only [Progress.returns.injEq, Except.error.injEq] at h
    rw [← h]
    rfl
  · cases h

theorem settle_error {r : AttemptResult}
    (h : (p.settle unit n r l b : Turn B (Trial X)).progress = .returns (.error e)) :
    e.isCancellation = false := by
  cases r with
  | ok outputs => cases h
  | error error =>
    rw [settle] at h
    split at h
    · exact retry_error h
    · simp only [Progress.returns.injEq, Except.error.injEq] at h
      rw [← h]
      rfl

theorem attempt_error {backend : Backend B X}
    (h : (p.attempt backend unit n l b).progress = .returns (.error e)) (he : e.isCancellation = true) :
    l.cancelled.isSome = true := by
  cases hl : l.cancelled with
  | some reason => rfl
  | none =>
    simp only [attempt, hl] at h
    split at h
    · rw [settle_error h] at he
      cases he
    · cases h

theorem honest (p : RetryPolicy) (backend : Backend B X) : (Runner.retrying p backend).Honest where
  start unit l w e h he := attempt_error h he
  look u l w e h he := by
    cases hl : l.cancelled with
    | some reason => rfl
    | none =>
      rw [← hl]
      cases u with
      | attempting unit n deadline x =>
        simp only [Runner.retrying, look, hl] at h
        split at h
        · rw [settle_error h] at he
          cases he
        · split at h
          · rw [retry_error h] at he
            cases he
          · cases h
      | resting unit n wakes =>
        simp only [Runner.retrying, look] at h
        split at h
        · exact attempt_error h he
        · cases h

end RetryPolicy

theorem Runner.Provided.honest {R : Runner W U} (h : R.Provided) : R.Honest := by
  cases h with
  | scripted scriptOf => exact Script.honest scriptOf
  | retrying p backend => exact RetryPolicy.honest p backend

/-! ### In virtual time -/

/-- A backend whose attempts are over when they are due. -/
def Backend.Punctual (backend : Backend B X) : Prop :=
  ∀ x now b, (backend.due x).any (· ≤ now) = true → ∃ r, (backend.look x now b).2 = .returns r

/-- A program that hangs is due at no instant. -/
theorem Backend.planned_punctual {M : Type} (p : Programs M) (planOf : UnitOfWork → Plan) :
    (Backend.planned p planOf).Punctual :=
  fun _ _ _ h => absurd h (by simp [Backend.planned])

namespace Runner

/-- The runners there are in virtual time: the attempts of a backend are over when they are due. -/
inductive OnTime : {W U : Type} → Runner W U → Prop
  | scripted (scriptOf : String → Script) : OnTime (.scripted scriptOf)
  | retrying {B X : Type} (p : RetryPolicy) {backend : Backend B X} (h : backend.Punctual) :
      OnTime (.retrying p backend)

/-- A runner whose units are always due at some instant, and take no more looks than they may: each look
at a unit that is due, or under a cancelled scope, makes its rank smaller. -/
structure Prompt (R : Runner W U) (rank : U → Nat) : Prop where
  due : ∀ u, (R.due u).isSome = true
  start : ∀ unit l w u, (R.start unit l w).progress = .waits u → rank u < R.looks
  look : ∀ u l w u', l.cancelled.isSome = true ∨ (R.due u).any (· ≤ l.now) = true →
    (R.look u l w).progress = .waits u' → rank u' < rank u

theorem OnTime.provided {R : Runner W U} (h : R.OnTime) : R.Provided := by
  cases h with
  | scripted scriptOf => exact .scripted scriptOf
  | retrying p _ => exact .retrying p _

end Runner

namespace Script

theorem finish_returns (s : Script) (unit : UnitOfWork) (j : Journal) :
    ∃ r, (s.finish unit j).progress = .returns r := by
  rw [finish]
  split <;> exact ⟨_, rfl⟩

/-- A unit that follows a script is looked at once. -/
theorem prompt (scriptOf : String → Script) : (Runner.scripted scriptOf).Prompt fun _ => 0 where
  due u := rfl
  start unit l w u h := Nat.zero_lt_one
  look u l w u' hd h := by
    cases hl : l.cancelled with
    | some reason => simp [Runner.scripted, look, hl] at h
    | none =>
      have hw : u.wakes ≤ l.now := by simpa [Runner.scripted, hl] using hd
      obtain ⟨r, hr⟩ := finish_returns u.script u.unit w
      simp [Runner.scripted, look, hl, hw, hr] at h

end Script

namespace Trial

/-- How many looks at the attempts at a unit there are to come at most. -/
def rank (attempts : Nat) : Trial X → Nat
  | attempting _ n _ _ => 2 * (attempts - n) + 1
  | resting _ n _ => max 2 (2 * (attempts - n))

theorem rank_attempting (attempts : Nat) (unit : UnitOfWork) (n deadline : Nat) (x : X) :
    (attempting unit n deadline x).rank attempts = 2 * (attempts - n) + 1 := rfl

theorem rank_resting (attempts : Nat) (unit : UnitOfWork) (n wakes : Nat) :
    (resting unit n wakes : Trial X).rank attempts = max 2 (2 * (attempts - n)) := rfl

end Trial

namespace RetryPolicy

variable {p : RetryPolicy} {unit : UnitOfWork} {n : Nat} {l : Look} {b : B} {t : Trial X}

theorem retry_waits {f : UnitFailure} (h : (p.retry unit n f l b : Turn B (Trial X)).progress = .waits t) :
    n < p.attempts ∧ t.rank p.attempts = 2 * (p.attempts - n) := by
  rw [retry] at h
  split at h
  · cases h
  · rename_i hn
    obtain rfl := Progress.waits.inj h
    rw [Trial.rank_resting]
    omega

theorem settle_waits {r : AttemptResult} (h : (p.settle unit n r l b : Turn B (Trial X)).progress = .waits t) :
    n < p.attempts ∧ t.rank p.attempts = 2 * (p.attempts - n) := by
  cases r with
  | ok outputs => cases h
  | error error =>
    rw [settle] at h
    split at h
    · exact retry_waits h
    · cases h

theorem attempt_waits {backend : Backend B X} (h : (p.attempt backend unit n l b).progress = .waits t) :
    t.rank p.attempts ≤ 2 * (p.attempts - n) + 1 := by
  cases hl : l.cancelled with
  | some reason => simp [attempt, hl] at h
  | none =>
    simp only [attempt, hl] at h
    split at h
    · have := (settle_waits h).2
      omega
    · obtain rfl := Progress.waits.inj h
      exact le_rfl

/-- The attempts at a unit are looked at when one is over and when a wait between two is. -/
theorem prompt (p : RetryPolicy) {backend : Backend B X} (hb : backend.Punctual) :
    (Runner.retrying p backend).Prompt (Trial.rank p.attempts) where
  due u := by cases u <;> rfl
  start unit l w u h := by
    have hrank := attempt_waits h
    have hpos : 1 ≤ p.attempts := le_max_left _ _
    simp only [Runner.retrying]
    omega
  look u l w u' hd h := by
    cases u with
    | resting unit n wakes =>
      simp only [Runner.retrying, look] at h
      split at h
      · have hrank := attempt_waits h
        rw [Trial.rank_resting]
        omega
      · rename_i hn
        rw [not_or] at hn
        rcases hd with hd | hd
        · exact absurd hd hn.2
        · exact absurd (by simpa [Runner.retrying, Trial.due] using hd) hn.1
    | attempting unit n deadline x =>
      cases hl : l.cancelled with
      | some reason => simp [Runner.retrying, look, hl] at h
      | none =>
        simp only [Runner.retrying, look, hl] at h
        split at h
        · have hrank := (settle_waits h).2
          rw [Trial.rank_attempting]
          omega
        · rename_i b' x' hlook
          split at h
          · have hrank := (retry_waits h).2
            rw [Trial.rank_attempting]
            omega
          · -- before its time limit an attempt is looked at when the backend has it over
            rename_i hlimit
            have hdue : (backend.due x).any (· ≤ l.now) = true := by
              rcases hd with hd | hd
              · simp [hl] at hd
              · cases hx : backend.due x with
                | none => simp [Runner.retrying, Trial.due, hx, hlimit] at hd
                | some d =>
                  simp only [Runner.retrying, Trial.due, hx, Option.elim_some, Option.any_some,
                    decide_eq_true_eq] at hd
                  simp only [Option.any_some, decide_eq_true_eq]
                  omega
            obtain ⟨r, hr⟩ := hb x l.now w hdue
            rw [hlook] at hr
            cases hr

end RetryPolicy

theorem Runner.OnTime.prompt {R : Runner W U} (h : R.OnTime) : ∃ rank, R.Prompt rank := by
  cases h with
  | scripted scriptOf => exact ⟨_, Script.prompt scriptOf⟩
  | retrying p hb => exact ⟨_, RetryPolicy.prompt p hb⟩

end StageTree
