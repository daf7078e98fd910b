import StageTree.CommandLine.Request
import StageTree.CommandLine.Summary
import StageTree.Folder
import StageTree.Run.Launch

/-! What the commands answer: what they print, what they write, and how they end. -/

namespace StageTree.CommandLine

/-- How a command ends: with an exit code, or with a failure, told by the texts of its causes, the
outermost first. -/
inductive Ending where
  | exit (code : Nat)
  | failure (causes : List String)
  deriving DecidableEq, Repr

/-- What a command prints, the text that it writes to a file, and how it ends. -/
structure Answer where
  stdout : String := ""
  stderr : String := ""
  file : Option (String × String) := none
  ending : Ending
  deriving DecidableEq, Repr

namespace Answer

/-- A command that fails with nothing printed. -/
def fail (causes : List String) : Answer := { ending := .failure causes }

/-- What is left of an answer whose text cannot be written. -/
def unwritten (path reason : String) : Answer := fail ["failed to write " ++ path, reason]

end Answer

/-- The pipeline that a file holds, or the causes why there is none. -/
def loadPipeline (read : String → Contents) (file : String) : Except (List String) Pipeline :=
  match (read file).text with
  | .error reason => .error ["failed to read " ++ file, reason]
  | .ok source => (Source.parse source).mapError fun e => ["failed to parse " ++ file, e.message]

/-- The configuration that a file gives, or the default one. -/
def loadConfig (read : String → Contents) : Option String → Except (List String) Config
  | none => .ok {}
  | some path => (Config.ofFile path (read path)).mapError fun f =>
    ["failed to load config " ++ path, f.error.message]

def check (file : String) (p : Pipeline) : Answer :=
  match p.violation? with
  | some v => .fail [file ++ " is not a valid pipeline", v.message]
  | none =>
    { stdout := file ++ ": " ++ toString p.stages.length ++ " stages (" ++ toString p.stageCount ++
        " total)\n" ++ p.summary
      ending := .exit 0 }

/-- The answer of `run` after the run: its results go to a file or are printed, and its error is told. -/
def report (output : Option String) (o : Outcome) : Answer :=
  let text := o.results.form.indented
  { stdout := if output.isSome then "" else text ++ "\n"
    stderr := match o.error with
      | none => ""
      | some e => "pipeline failed (" ++ e.kind ++ "): " ++ e.message ++ "\n"
    file := output.map fun path => (path, text)
    ending := .exit (if o.isSuccess then 0 else 1) }

def Request.answer {M : Type} (programs : Programs M) (read : String → Contents) (m : M) :
    Request → M × Answer
  | .check file =>
    match loadPipeline read file with
    | .error causes => (m, .fail causes)
    | .ok p => (m, CommandLine.check file p)
  | .parse file =>
    match loadPipeline read file with
    | .error causes => (m, .fail causes)
    | .ok p => (m, { stdout := p.toJson.indented ++ "\n", ending := .exit 0 })
  | .run file config vars output =>
    match loadConfig read config with
    | .error causes => (m, .fail causes)
    | .ok c =>
      match loadPipeline read file with
      | .error causes => (m, .fail causes)
      | .ok p =>
        let r := Run.validated (c.setting programs (.ofList vars)) [] m p
        (r.world, report output r.outcome)

/-- The answer once its text is written to a folder, if there is one. -/
def Answer.writeTo (a : Answer) (f : Folder) : Folder × Answer :=
  match a.file with
  | none => (f, a)
  | some (path, text) =>
    match f.write path text.toUTF8.toList with
    | .ok f => (f, a)
    | .error reason => (f, .unwritten path reason)

end StageTree.CommandLine
