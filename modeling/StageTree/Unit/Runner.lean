import StageTree.Error
import StageTree.Event.Basic
import StageTree.Unit.Basic
import StageTree.Wait

/-! Runners of units of work. A runner starts a unit and is then looked at from time to time. Each time
it changes the world around it, leaves notes, and either waits on or returns: with outputs, or with
what ended the unit without them. -/

namespace StageTree

/-- How far a piece of work is: it waits for something, or it has returned. -/
inductive Progress (σ ρ : Type) where
  | waits (state : σ)
  | returns (result : ρ)
  deriving DecidableEq, Repr

abbrev UnitResult := Except RunError (List String)

/-- What a runner finds when it is looked at: the instant, in milliseconds, why its scope is cancelled,
if it is, and what chance gives. -/
structure Look where
  now : Nat
  cancelled : Option String := none
  draw : Nat := 0
  deriving Repr

/-- What a runner says about the attempts at a unit. -/
inductive Note where
  | attemptStarted (attempt : Nat)
  | attemptFailed (attempt : Nat) (failure : UnitFailure)
  | attemptRefused (attempt : Nat) (message : String)
  | retrying (attempt delayMs : Nat)
  deriving DecidableEq, Repr

namespace Note

def event? (unit : String) : Note → Option Event
  | attemptFailed attempt failure => some ⟨"unit.attempt_failed", some <| .object
      [("stage", .string unit), ("attempt", .nat attempt), ("error", .string failure.message)]⟩
  | retrying attempt delayMs => some ⟨"unit.retrying", some <| .object
      [("stage", .string unit), ("attempt", .nat attempt), ("delay_ms", .nat delayMs)]⟩
  | _ => none

def line? : Note → Option (Level × String)
  | attemptStarted _ => some (.debug, "Starting attempt")
  | attemptFailed _ _ => some (.warn, "Attempt failed")
  | attemptRefused _ _ => some (.warn, "Attempt failed, not retryable")
  | retrying _ _ => none

end Note

/-- What comes of looking at a runner. -/
structure Turn (W U : Type) where
  world : W
  notes : List Note := []
  progress : Progress U UnitResult

/-- A runner in a world. A unit is started once and then looked at, at the latest when it is due or
its scope is cancelled, and no more than `looks` times. -/
structure Runner (W U : Type) where
  start : UnitOfWork → Look → W → Turn W U
  look : U → Look → W → Turn W U
  due : U → Option Nat
  looks : Nat

end StageTree
