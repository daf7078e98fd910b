import StageTree.File

/-! The files of a folder, read and written by paths. A path is walked from directory to directory:
from the folder, or from the root where it begins with a slash. Of what stands outside the folder only
the directories and the devices that every system has are known. -/

namespace StageTree

/-- Where a directory or a file stands, its own name first: under the folder, under a directory so many
times above it, or under the root, whose name is the slash. -/
abbrev Place := List String

/-- A folder lies less deep under the root than this. -/
def greatestDepth : Nat := 16

/-- The directory that holds another. The root holds itself. -/
def Place.up : Place → Place
  | [] => [".."]
  | ["/"] => ["/"]
  | ".." :: above => if above.length + 2 < greatestDepth then ".." :: ".." :: above else ["/"]
  | _ :: above => above

def pathSteps (path : String) : List String := path.splitOn "/"

def Place.start (path : String) : Place := if path.toList.head? = some '/' then ["/"] else []

/-- The files of a folder, and others that were written, by their places. -/
structure Folder where
  files : List (Place × List UInt8) := []
  deriving Repr

namespace Folder

def noSuchFile : String := "No such file or directory (os error 2)"

def notDirectory : String := "Not a directory (os error 20)"

def isDirectory : String := "Is a directory (os error 21)"

def permissionDenied : String := "Permission denied (os error 13)"

def nameTooLong : String := "File name too long (os error 36)"

def unexpectedNul : String := "file name contained an unexpected NUL byte"

def noSpace : String := "No space left on device (os error 28)"

/-- Files that are always there. They keep no text; what else can be read from them is not known. -/
def devices : List Place := ["null", "full", "zero", "random", "urandom"].map ([·, "dev", "/"])

/-- The device that takes no text. -/
def full : Place := ["full", "dev", "/"]

/-- Directories that stand under the root. -/
def outside : List Place :=
  let tops := ["bin", "boot", "dev", "etc", "home", "lib", "media", "mnt", "opt", "proc", "root", "run",
    "sbin", "srv", "sys", "tmp", "usr", "var"]
  let inUsr := ["bin", "include", "lib", "local", "sbin", "share", "src"]
  let inVar := ["cache", "lib", "log", "spool", "tmp"]
  tops.map ([·, "/"]) ++ inUsr.map ([·, "usr", "/"]) ++ inVar.map ([·, "var", "/"]) ++
    [["shm", "dev", "/"], ["pts", "dev", "/"]]

def lookup (f : Folder) (p : Place) : Option (List UInt8) :=
  if devices.contains p then some [] else f.files.lookup p

/-- Whether a directory is at a place: one from outside, or one that holds files. -/
def hasDirectory (f : Folder) (p : Place) : Bool :=
  outside.contains p || f.files.any fun file => p.isSuffixOf file.1 && p != file.1

/-- What a path leads to: a directory, a file, or a name that is not taken in a directory. -/
inductive Found where
  | directory
  | file (p : Place) (bytes : List UInt8)
  | free (p : Place)

/-- What the steps lead to from a directory, or why they lead nowhere. -/
def walk (f : Folder) (here : Place) : List String → Except String Found
  | [] => .ok .directory
  | step :: steps =>
    if step = "" ∨ step = "." then f.walk here steps
    else if step = ".." then f.walk here.up steps
    else if 255 < step.utf8ByteSize then .error nameTooLong
    else
      match f.lookup (step :: here) with
      | some bytes => if steps.isEmpty then .ok (.file (step :: here) bytes) else .error notDirectory
      | none =>
        if f.hasDirectory (step :: here) then f.walk (step :: here) steps
        else if steps.isEmpty then .ok (.free (step :: here))
        else .error noSuchFile

/-- The steps of a path that the system takes, or why it takes none. -/
def stepsOf (path : String) : Except String (List String) :=
  if path.contains '\x00' then .error unexpectedNul
  else if path = "" then .error noSuchFile
  else if 4096 ≤ path.utf8ByteSize then .error nameTooLong
  else .ok (pathSteps path)

def locate (f : Folder) (path : String) : Except String Found := do
  f.walk (.start path) (← stepsOf path)

def read (f : Folder) (path : String) : Contents := do
  match ← f.locate path with
  | .directory => .error isDirectory
  | .file _ bytes => .ok bytes
  | .free _ => .error noSuchFile

def put (f : Folder) (p : Place) (bytes : List UInt8) : Folder :=
  if devices.contains p then f else ⟨(p, bytes) :: f.files.filter (·.1 != p)⟩

/-- The steps without those at the end that are empty. -/
def trimSlashes (steps : List String) : List String := (steps.reverse.dropWhile (· = "")).reverse

/-- The folder after bytes are written to a file, or why they cannot be. A slash at the end asks for a
directory whatever the last step leads to. -/
def write (f : Folder) (path : String) (bytes : List UInt8) : Except String Folder := do
  let steps ← stepsOf path
  if steps.getLast? = some "" then
    let _ ← f.walk (.start path) ((trimSlashes steps).dropLast ++ [""])
    .error isDirectory
  else
    match ← f.walk (.start path) steps with
    | .directory => .error isDirectory
    | .file p _ => if p = full then .error noSpace else .ok (f.put p bytes)
    | .free p => .ok (f.put p bytes)

/-- The place of a path whose directories are made where they lack. -/
def placeOf (path : String) : Place :=
  (pathSteps path).foldl (fun here step =>
    if step = "" ∨ step = "." then here else if step = ".." then here.up else step :: here) (.start path)

/-- The folder of the files, in directories of their own where the paths lead through such. A file that
cannot be written for any other reason is left out. -/
def ofFiles (files : List (String × List UInt8)) : Folder :=
  files.foldl (fun f file =>
    match f.write file.1 file.2 with
    | .ok f => f
    | .error reason =>
      if reason = noSuchFile ∧ file.1 ≠ "" then f.put (placeOf file.1) file.2 else f) {}

/-- The place of the program that a path leads to, or why it cannot be started. `canRun` tells which
files are programs. -/
def programAt (f : Folder) (canRun : Place → Bool) (path : String) : Except String Place := do
  match ← f.locate path with
  | .directory => .error permissionDenied
  | .file p _ => if canRun p then .ok p else .error permissionDenied
  | .free _ => .error noSuchFile

/-- What is passed over in a search for a program: a directory may lack it, or not be there, or hold
what cannot be run. -/
def isPassedOver (reason : String) : Bool := [noSuchFile, notDirectory, permissionDenied].contains reason

/-- The first program of a name in some directories, of which the empty one is the folder. Without one,
what could not be run is the reason, or else what the last directory says. -/
def search (f : Folder) (canRun : Place → Bool) (name : String) : List String → Except String Place
  | [] => .error noSuchFile
  | dir :: dirs =>
    match f.programAt canRun (if dir = "" then name else dir ++ "/" ++ name) with
    | .ok p => .ok p
    | .error reason =>
      if dirs.isEmpty || !isPassedOver reason then .error reason
      else
        match f.search canRun name dirs with
        | .ok p => .ok p
        | .error later =>
          .error (if reason = permissionDenied ∧ isPassedOver later then permissionDenied else later)

/-- The directories between the colons of a search path. One whose name is too long for any path is
taken for the folder, or left out at the end. -/
def searchDirs (path : String) : List String :=
  let dirs := path.splitOn ":"
  let isLong (dir : String) : Bool := 4096 ≤ dir.utf8ByteSize
  let dirs := if dirs.getLast?.any isLong then dirs.dropLast else dirs
  dirs.map fun dir => if isLong dir then "" else dir

/-- Where programs are looked for unless it is said. There are none, but directories. -/
def defaultSearch : String := "/bin"

/-- The place of the program that a word names, or why it cannot be started. A word with a slash is a
path; any other is looked for in the directories that are given, with colons between them. -/
def program (f : Folder) (canRun : Place → Bool) (dirs : Option String) (word : String) :
    Except String Place :=
  if word.contains '/' then f.programAt canRun word
  else if word = "" then .error noSuchFile
  else f.search canRun word (searchDirs (dirs.getD defaultSearch))

end Folder

end StageTree
