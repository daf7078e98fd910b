import StageTree.Source.Token
import StageTree.Text.Quoted

/-! Why a source cannot be read, and where. -/

namespace StageTree.Source

inductive Fault where
  | unexpected (expected : Expected) (found : Lexeme)
  | unexpectedEnd (expected : Expected)
  | unclosedText
  | unclosedComment
  | strayChar (c : Char)
  deriving DecidableEq, Repr

def Fault.message : Fault → String
  | unexpected expected found => "expected " ++ expected.shown ++ ", found " ++ found.shown
  | unexpectedEnd expected => "expected " ++ expected.shown ++ ", found end of input"
  | unclosedText => "unterminated quoted string"
  | unclosedComment => "unterminated block comment"
  | strayChar c => "invalid character " ++ Text.shownChar c

structure Error where
  fault : Fault
  position : Position
  deriving DecidableEq, Repr

def Error.message (e : Error) : String :=
  "Parse error at line " ++ toString e.position.line ++ ", column " ++ toString e.position.column ++
    ": " ++ e.fault.message

end StageTree.Source
