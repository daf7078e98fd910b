import StageTree.Backend.Basic
import StageTree.Retry

/-! The runner that makes attempts at a unit through a backend. Each attempt has a time limit. After one
that fails the runner waits and makes another, as long as the policy leaves one and the failure is not
for ever. Whatever it waits for, it gives up once its scope is cancelled. -/

namespace StageTree

/-- Where the attempts at a unit stand: one is being made until its time limit, or the wait before the
next one lasts. Attempts are numbered from 1. -/
inductive Trial (X : Type) where
  | attempting (unit : UnitOfWork) (attempt deadline : Nat) (state : X)
  | resting (unit : UnitOfWork) (attempt wakes : Nat)
  deriving Repr

namespace RetryPolicy

variable {B X : Type} (p : RetryPolicy)

/-- What follows a failed attempt: another one, after a wait, or the end. -/
def retry (unit : UnitOfWork) (attempt : Nat) (failure : UnitFailure) (l : Look) (b : B) :
    Turn B (Trial X) :=
  let failed := Note.attemptFailed attempt failure
  if p.attempts ≤ attempt then
    { world := b, notes := [failed],
      progress := .returns (.error (.unit ⟨unit.name, attempt, failure⟩)) }
  else
    let delayMs := (p.delay (attempt - 1).toUInt64 l.draw).toNat
    { world := b, notes := [failed, .retrying (attempt + 1) delayMs],
      progress := .waits (.resting unit attempt (waitEnd l.now delayMs)) }

/-- What follows an attempt that returned. -/
def settle (unit : UnitOfWork) (attempt : Nat) (r : AttemptResult) (l : Look) (b : B) :
    Turn B (Trial X) :=
  match r with
  | .ok outputs => { world := b, progress := .returns (.ok outputs) }
  | .error e =>
    if e.isRetryable then p.retry unit attempt (.failed e.message) l b
    else
      { world := b, notes := [.attemptRefused attempt e.message],
        progress := .returns (.error (.unit ⟨unit.name, attempt, .notRetryable e.message⟩)) }

def attempt (backend : Backend B X) (unit : UnitOfWork) (n : Nat) (l : Look) (b : B) :
    Turn B (Trial X) :=
  match l.cancelled with
  | some reason => { world := b, progress := .returns (.error (.cancelled unit.name reason)) }
  | none =>
    let turn := match backend.start unit l.now b with
      | (b, .returns r) => p.settle unit n r l b
      | (b, .waits x) =>
        { world := b, progress := .waits (.attempting unit n (waitEnd l.now p.timeoutMs) x) }
    { turn with notes := .attemptStarted n :: turn.notes }

/-- A look at the attempts. A cancelled scope is found first; an attempt that is over is found before
its time limit. -/
def look (backend : Backend B X) (t : Trial X) (l : Look) (b : B) : Turn B (Trial X) :=
  match t with
  | .attempting unit n deadline x =>
    match l.cancelled with
    | some reason =>
      { world := backend.drop x b, progress := .returns (.error (.cancelled unit.name reason)) }
    | none =>
      match backend.look x l.now b with
      | (b, .returns r) => p.settle unit n r l b
      | (b, .waits x) =>
        if deadline ≤ l.now then p.retry unit n (.timedOut p.timeoutMs) l (backend.drop x b)
        else { world := b, progress := .waits (.attempting unit n deadline x) }
  | .resting unit n wakes =>
    if wakes ≤ l.now ∨ l.cancelled.isSome then p.attempt backend unit (n + 1) l b
    else { world := b, progress := .waits (.resting unit n wakes) }

end RetryPolicy

/-- The instant at which something happens to the attempts by itself. -/
def Trial.due {B X : Type} (backend : Backend B X) : Trial X → Option Nat
  | .attempting _ _ deadline x => some ((backend.due x).elim deadline (min deadline))
  | .resting _ _ wakes => some wakes

def Runner.retrying {B X : Type} (p : RetryPolicy) (backend : Backend B X) : Runner B (Trial X) where
  start unit := p.attempt backend unit 1
  look := p.look backend
  due := Trial.due backend
  looks := 2 * p.attempts

def RetryPolicy.inspectRunner (p : RetryPolicy) : String :=
  "RetryingUnitRunner \x7b config: " ++ p.inspect ++ ", .. \x7d"

end StageTree
