import StageTree.Error

/-! Joining the tasks of a group. Each task that ends is reported once, and from the reports, taken one
by one in the order in which they come, the error of the group and the task that cancels it follow. -/

namespace StageTree

/-- How a task of a group ended: with a value, unless it broke down, and with an error, or none. -/
structure Report (α : Type) where
  index : Nat
  name : String
  value : Option α
  error : Option RunError
  deriving DecidableEq, Repr, Inhabited

/-- What is known of a group from the tasks joined so far. -/
structure Join (α : Type) where
  reports : List (Report α) := []
  error : Option RunError := none
  cancelledBy : Option String := none
  deriving DecidableEq, Repr, Inhabited

namespace Join

variable {α : Type}

/-- The error of a group after one more: the first one stands, but a failure takes the place of a
cancellation. -/
def firstError (so : Option RunError) (e : Option RunError) : Option RunError :=
  match so, e with
  | none, e => e
  | some so, none => some so
  | some so, some e => if so.isCancellation && !e.isCancellation then some e else some so

/-- Whether a report makes a group cancel its scope, which is cancelled for a reason or live. -/
def cancels (failFast : Bool) (scope : Option String) (r : Report α) : Bool :=
  failFast && scope.isNone && r.error.any fun e => !e.isCancellation

def failureReason (name : String) : String := "'" ++ name ++ "' failed"

def add (failFast : Bool) (scope : Option String) (j : Join α) (r : Report α) : Join α :=
  { reports := j.reports ++ [r]
    error := firstError j.error r.error
    cancelledBy := if cancels failFast scope r then some r.name else j.cancelledBy }

/-- The reports in the order in which the tasks were spawned. -/
def ordered (j : Join α) : List (Report α) :=
  j.reports.mergeSort fun a b => decide (a.index ≤ b.index)

end Join

end StageTree
