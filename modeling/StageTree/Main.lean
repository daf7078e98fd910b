import StageTree.CommandLine.Answer

/-! The command line program. It reads the files that its arguments name, answers, and prints and writes
what the answer says. It starts no programs itself: a command of a stage finds none. -/

namespace StageTree

def noPrograms : Programs Unit where
  call _ _ := ((), some (.unstarted "this launcher starts no programs"))
  callAside _ _ := ()

def CommandLine.Request.reads : CommandLine.Request → List String
  | .run file config _ _ => file :: config.toList
  | .check file => [file]
  | .parse file => [file]

def readFile (path : String) : IO Contents := do
  try
    return .ok (← IO.FS.readBinFile path).toList
  catch e => return .error (toString e)

end StageTree

open StageTree CommandLine in
/-- The program: it exits with 2 for arguments that are not understood, with 1 for a failure. -/
def main (args : List String) : IO UInt32 := do
  match Request.ofArgs args with
  | .error r =>
    IO.eprintln (if r.message = "" then "usage: run FILE | check FILE | parse FILE" else r.message)
    return if r = .help then 0 else 2
  | .ok request =>
    let contents ← request.reads.mapM fun path => return (path, ← readFile path)
    let read (path : String) : Contents := (contents.lookup path).getD (.error Folder.noSuchFile)
    let mut answer := (request.answer noPrograms read ()).2
    if let some (path, text) := answer.file then
      try
        IO.FS.writeFile path text
      catch e => answer := .unwritten path (toString e)
    IO.print answer.stdout
    IO.eprint answer.stderr
    match answer.ending with
    | .exit code => return code.toUInt32
    | .failure causes =>
      IO.eprintln (": ".intercalate causes)
      return 1
