import StageTree.Json.Printer

/-! Events of a run, and the sinks that take them. -/

namespace StageTree

/-- Something that happened, by the name of its type, with data if it has any. -/
structure Event where
  type : String
  data : Option Json := none
  deriving Repr, Inhabited

namespace Event

def stage? (e : Event) : Option String :=
  match e.data.bind (Json.field? "stage") with
  | some (.string s) => some s
  | _ => none

end Event

structure Collected where
  events : List Event := []

namespace Collected

def emit (c : Collected) (e : Event) : Collected := ⟨c.events ++ [e]⟩

/-- The events whose type starts with a text. -/
def ofType (c : Collected) (start : String) : List Event :=
  c.events.filter fun e => start.toList.isPrefixOf e.type.toList

def stagesFor (c : Collected) (type : String) : List String :=
  (c.events.filter (·.type == type)).filterMap Event.stage?

end Collected

/-- How much a log line matters. -/
inductive Level where
  | error
  | warn
  | info
  | debug
  | trace
  deriving DecidableEq, Repr, Inhabited

def Level.name : Level → String
  | error => "ERROR"
  | warn => "WARN"
  | info => "INFO"
  | debug => "DEBUG"
  | trace => "TRACE"

/-- The level of a name, in capital or small letters, or of a number, 1 for what matters most. -/
def Level.ofName? (name : String) : Option Level :=
  match name.toLower with
  | "error" | "1" => some error
  | "warn" | "2" => some warn
  | "info" | "3" => some info
  | "debug" | "4" => some debug
  | "trace" | "5" => some trace
  | _ => none

structure EventLine where
  level : Level
  eventType : String
  eventData : String
  deriving Repr

def EventLine.message (l : EventLine) : String := "Event: " ++ l.eventType

/-- The line that a sink of a level writes about an event: a detailed sink writes detail, and any
other writes information. Data is compact, its fields sorted by name. -/
def Event.line (level : Level) (e : Event) : EventLine :=
  { level := if level = .debug ∨ level = .trace then .debug else .info
    eventType := e.type
    eventData := (e.data.map fun d => d.sorted.compact).getD "" }

end StageTree
