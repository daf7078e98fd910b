import StageTree.Ledger.Record
import StageTree.Unit.Runner

/-! The trace of a run: everything that happens in it, in the order in which it does. Its events, its
log lines and its ledger are what a reader of the trace picks out. -/

namespace StageTree

/-- Something that happens to a run or to one of its stages. -/
inductive Happening where
  | runStarted (stages : Nat)
  | runFailed (stage : String) (error : RunError)
  | runCompleted
  | started
  | fanned (branches : Nat)
  | submitted (unit : UnitOfWork)
  | noted (note : Note)
  | returned (result : UnitResult)
  | joined (branch : String) (error : Option RunError)
  | cancelling (branch : String)
  | ended (record : StageRecord)

/-- Something that happens at an instant to the stage at a path, or to the run, whose path is empty. -/
structure Entry where
  ms : Nat
  path : List String
  what : Happening

namespace Entry

def stage (e : Entry) : String := e.path.getLastD ""

def endType : Status → String
  | .ok => "stage.completed"
  | .fail => "stage.failed"
  | .cancel => "stage.cancelled"

def event? (e : Entry) : Option Event :=
  let event (type : String) (fields : List (String × Json)) : Option Event :=
    some ⟨type, some (.object fields)⟩
  match e.what with
  | .runStarted stages => event "pipeline.started" [("stage_count", .nat stages)]
  | .runFailed stage error =>
    event "pipeline.failed" [("stage", .string stage), ("error", .string error.message)]
  | .runCompleted => event "pipeline.completed" []
  | .started => event "stage.started" [("stage", .string e.stage), ("path", .strings e.path)]
  | .noted note => note.event? e.stage
  | .cancelling branch =>
    event "parallel.cancelling" [("stage", .string e.stage), ("failed_branch", .string branch)]
  | .ended record =>
    event (endType record.status) [("stage", .string e.stage), ("path", .strings record.path),
      ("error", .ofOption .string record.error)]
  | _ => none

def record? (e : Entry) : Option StageRecord :=
  match e.what with
  | .ended record => some record
  | _ => none

def lines (e : Entry) : List (Level × String) :=
  match e.what with
  | .runStarted _ => [(.info, "Pipeline started")]
  | .runFailed _ _ => [(.warn, "Pipeline failed")]
  | .runCompleted => [(.info, "Pipeline completed")]
  | .started => [(.debug, "Stage started")]
  | .fanned _ => [(.info, "Starting parallel group")]
  | .noted note => note.line?.toList
  | .joined _ (some _) => [(.debug, "Task finished with error")]
  | .cancelling _ =>
    [(.warn, "Cancelling task group after failure"), (.warn, "Cancelling parallel branches")]
  | .ended record =>
    if record.status = .fail then [(.warn, "Stage failed")] else [(.debug, "Stage finished")]
  | _ => []

end Entry

end StageTree
