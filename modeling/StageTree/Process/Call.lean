import StageTree.Bindings
import StageTree.Text.Blank
import StageTree.Text.Control
import StageTree.Text.Utf8

/-! Calls of programs, and what comes of them. -/

namespace StageTree

/-- A program to be started, its arguments, and the variables added to its environment. -/
structure Call where
  program : String
  args : List String
  env : Bindings := .empty
  deriving DecidableEq, Repr

/-- What a program that has ended leaves: its exit code, unless a signal ended it, and what it wrote. -/
structure Output where
  code : Option Int := some 0
  stdout : List UInt8 := []
  stderr : List UInt8 := []
  deriving DecidableEq, Repr

namespace Output

def succeeded (o : Output) : Bool := o.code == some 0

/-- The exit code as it is reported: -1 for a signal. -/
def reportedCode (o : Output) : Int := o.code.getD (-1)

def text (o : Output) : String := Text.readLossy o.stdout

def complaint (o : Output) : String := Text.readLossy o.stderr

end Output

/-- What comes of a call: the program could not be started, or it has ended. -/
inductive CallResult where
  | unstarted (reason : String)
  | ended (output : Output)
  deriving DecidableEq, Repr

/-- Programs in a world. A call comes back with a result, unless the program never ends by itself; a
call nobody waits for leaves only its traces in the world. -/
structure Programs (M : Type) where
  call : Call → M → M × Option CallResult
  callAside : Call → M → M

end StageTree
