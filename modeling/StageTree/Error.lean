import StageTree.Pipeline.Validation
import StageTree.Source.Error

/-! The errors that end a run, and those that an execution backend reports for one attempt. -/

namespace StageTree

structure ValidationError where
  message : String
  stages : List String := []
  deriving DecidableEq, Repr

def Violation.error (v : Violation) : ValidationError := ⟨v.message, v.stages⟩

/-- Why a unit of work gave up. -/
inductive UnitFailure where
  | timedOut (limitMs : Nat)
  | failed (message : String)
  | notRetryable (message : String)
  deriving DecidableEq, Repr

def UnitFailure.message : UnitFailure → String
  | timedOut limitMs => "attempt timed out after " ++ toString (limitMs / 1000) ++ "s"
  | failed message => message
  | notRetryable message => message ++ " (not retryable)"

structure UnitError where
  unit : String
  attempts : Nat
  failure : UnitFailure
  deriving DecidableEq, Repr

namespace UnitError

def message (e : UnitError) : String :=
  "Unit '" ++ e.unit ++ "' failed after " ++ toString e.attempts ++ " attempt(s): " ++ e.failure.message

/-- Whether the last attempt ran into its time limit. -/
def isTimeout (e : UnitError) : Bool :=
  match e.failure with
  | .timedOut _ => true
  | _ => false

end UnitError

/-- What ends a run, a stage or a task without success. -/
inductive RunError where
  | parse (e : Source.Error)
  | validation (e : ValidationError)
  | unit (e : UnitError)
  | cancelled (stage reason : String)
  | config (message : String)
  | internal (message : String)
  deriving DecidableEq, Repr

namespace RunError

def message : RunError → String
  | parse e => e.message
  | validation e => e.message
  | unit e => e.message
  | cancelled stage reason => "Stage '" ++ stage ++ "' cancelled: " ++ reason
  | config message => "Configuration error: " ++ message
  | internal message => "Internal error: " ++ message

def kind : RunError → String
  | parse _ => "parse"
  | validation _ => "validation"
  | unit _ => "unit_execution"
  | cancelled _ _ => "cancelled"
  | config _ => "config"
  | internal _ => "internal"

/-- Whether the error only says that a cancellation was observed. -/
def isCancellation : RunError → Bool
  | cancelled _ _ => true
  | _ => false

end RunError

/-- What a backend reports when an attempt does not succeed. -/
inductive BackendError where
  | commandFailed (command : String) (exitCode : Int) (stderr : String)
  | unknownCommand (name : String)
  | missingParameter (name parameter : String)
  | spawn (program reason : String)
  | container (operation image reason : String)
  deriving DecidableEq, Repr

namespace BackendError

def message : BackendError → String
  | commandFailed command exitCode stderr =>
    "Command '" ++ command ++ "' exited with code " ++ toString exitCode ++ ": " ++ stderr
  | unknownCommand name => "No handler registered for step '" ++ name ++ "'"
  | missingParameter name parameter => "Step '" ++ name ++ "' requires parameter '" ++ parameter ++ "'"
  | spawn program reason => "Failed to spawn '" ++ program ++ "': " ++ reason
  | container operation image reason =>
    "Container " ++ operation ++ " failed for '" ++ image ++ "': " ++ reason

def kind : BackendError → String
  | commandFailed .. => "command_failed"
  | unknownCommand _ => "unknown_command"
  | missingParameter .. => "missing_parameter"
  | spawn .. => "spawn"
  | container .. => "container"

/-- Whether the same unit might succeed at another attempt: a step that cannot be rendered never does. -/
def isRetryable : BackendError → Bool
  | unknownCommand _ => false
  | missingParameter .. => false
  | _ => true

end BackendError

end StageTree
