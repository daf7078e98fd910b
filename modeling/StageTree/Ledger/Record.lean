import StageTree.Error
import StageTree.Retry
import StageTree.Ledger.Instant
import StageTree.Pipeline.Form

/-! The record that a stage leaves when it ends, and the ledger of all records of a run. -/

namespace StageTree

open Json (Misfit Record)

inductive Status where
  | ok
  | fail
  | cancel
  deriving DecidableEq, Repr, Inhabited

namespace Status

def name : Status → String
  | ok => "ok"
  | fail => "fail"
  | cancel => "cancel"

def ofName? : String → Option Status
  | "ok" => some ok
  | "fail" => some fail
  | "cancel" => some cancel
  | _ => none

def isSuccess : Status → Bool
  | ok => true
  | _ => false

def isFailure (s : Status) : Bool := !s.isSuccess

def ofError : Option RunError → Status
  | none => ok
  | some e => if e.isCancellation then cancel else fail

end Status

structure StageRecord where
  path : List String
  status : Status
  error : Option String := none
  startedAt : Instant
  finishedAt : Instant
  durationMs : UInt64
  deriving DecidableEq, Repr, Inhabited

namespace StageRecord

def finish (path : List String) (startedAt finishedAt : Instant) (error : Option RunError) : StageRecord :=
  { path, status := .ofError error, error := error.map RunError.message, startedAt, finishedAt,
    durationMs := (startedAt.millisUntil finishedAt).toUInt64 }

def displayPath (r : StageRecord) : String := "/".intercalate r.path

def toJson (r : StageRecord) : Json :=
  .object ([("path", .strings r.path), ("status", .string r.status.name)] ++
    Json.fieldOf "error" .string r.error ++
    [("started_at", .string r.startedAt.text), ("finished_at", .string r.finishedAt.text),
      ("duration_ms", .ofWord r.durationMs)])

def toInstant (j : Json) : Except Misfit Instant := do
  ((Instant.ofText (← Json.toText j)).mapError fun f => .refused f.message)

def ofJson (origin : Json.Origin) : Json → Except Misfit StageRecord :=
  Record.ofJson origin <| mk
    <$> Record.required "path" (Json.toList Json.toText)
    <*> Record.required "status" (Json.toVariant Status.ofName? origin)
    <*> Record.optional "error" Json.toText
    <*> Record.required "started_at" toInstant
    <*> Record.required "finished_at" toInstant
    <*> Record.required "duration_ms" Json.toWord

end StageRecord

def recordAt? (records : List StageRecord) (path : List String) : Option StageRecord :=
  records.find? (·.path == path)

def pathsWith (records : List StageRecord) (status : Status) : List String :=
  (records.filter (·.status == status)).map StageRecord.displayPath

end StageTree
