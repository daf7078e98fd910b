import StageTree.Ledger.Record
import StageTree.Results

/-! What is left of a run: the results, the records of its stages, and its error, if it has one. -/

namespace StageTree

structure Outcome where
  results : Results := .empty
  records : List StageRecord := []
  error : Option RunError := none
  durationMs : Nat := 0

namespace Outcome

def rejected (e : RunError) : Outcome := { error := some e }

def isSuccess (o : Outcome) : Bool := o.error.isNone

def record? (o : Outcome) (path : List String) : Option StageRecord := recordAt? o.records path

def paths (o : Outcome) (status : Status) : List String := pathsWith o.records status

def toExcept (o : Outcome) : Except RunError Results := o.error.elim (.ok o.results) .error

end Outcome

end StageTree
