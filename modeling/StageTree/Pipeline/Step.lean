import StageTree.Bindings

/-! Steps, and the commands that an execution backend is handed for them. -/

namespace StageTree

structure Param where
  key : String
  value : String
  deriving DecidableEq, Repr, Inhabited

/-- One directive of a stage: a command with a bare value, or with keyword parameters. -/
inductive Step where
  | single (command value : String)
  | multi (command : String) (params : List Param)
  deriving DecidableEq, Repr, Inhabited

/-- What a backend executes: shell text as it stands, or a named command with its parameters. -/
inductive Command where
  | shell (text : String)
  | invoke (name : String) (params : Bindings)
  deriving DecidableEq, Repr, Inhabited

namespace Command

/-- The name of a command, for shell text the text. -/
def name : Command → String
  | shell text => text
  | invoke name _ => name

def params? : Command → Option Bindings
  | shell _ => none
  | invoke _ params => some params

end Command

def Param.shown (p : Param) : String := p.key ++ ": '" ++ p.value ++ "'"

namespace Step

def name : Step → String
  | single command _ => command
  | multi command _ => command

def params : Step → List Param
  | single _ _ => []
  | multi _ params => params

/-- A step in source form, its values between single quotes. -/
def shown : Step → String
  | single command value => command ++ " '" ++ value ++ "'"
  | multi command params => command ++ " " ++ ", ".intercalate (params.map Param.shown)

/-- The command of a step: a bare value goes between single quotes as it is, and of equal parameter
keys the last one stands. -/
def toCommand : Step → Command
  | single command value => .shell (command ++ " '" ++ value ++ "'")
  | multi command params => .invoke command (.ofList (params.map fun p => (p.key, p.value)))

/-- The first key that some key before it equals, `seen` being the keys before the list. -/
def repeatedFrom (seen : List String) : List Param → Option String
  | [] => none
  | p :: ps => if seen.contains p.key then some p.key else repeatedFrom (p.key :: seen) ps

/-- The first parameter key that is given a second time. -/
def repeatedKey? (s : Step) : Option String := repeatedFrom [] s.params

end Step

end StageTree
