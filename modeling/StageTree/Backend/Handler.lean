import StageTree.Error
import StageTree.Shell.Quote

/-! Handlers of steps with keyword parameters: each turns the parameters of the steps of its name
into shell text. -/

namespace StageTree

/-- A handler of the steps of a name. -/
structure Handler where
  name : String
  render : Bindings → Except BackendError String

namespace Handler

/-- A parameter that a step needs. -/
def need (step key : String) (params : Bindings) : Except BackendError String :=
  match params.get? key with
  | some value => .ok value
  | none => .error (.missingParameter step key)

/-- `sh` runs its script as it stands. -/
def sh : Handler := ⟨"sh", need "sh" "script"⟩

/-- The text that clones a repository, at a branch if one is given. -/
def cloneText (url : String) : Option String → String
  | some branch => "git clone --branch " ++ Shell.quote branch ++ " " ++ Shell.quote url
  | none => "git clone " ++ Shell.quote url

/-- `git` clones a repository; parameters other than the address and the branch change nothing. -/
def git : Handler :=
  ⟨"git", fun params => do return cloneText (← need "git" "url" params) (params.get? "branch")⟩

/-- A handler that renders a fixed text and then each parameter, in the order of the keys. -/
def echoing (name text : String) : Handler :=
  ⟨name, fun params =>
    .ok (text ++ String.join (params.entries.map fun b => " " ++ b.1 ++ "=" ++ Shell.quote b.2))⟩

end Handler

structure Handlers where
  list : List Handler := []

namespace Handlers

/-- The handlers with one more, which replaces one of its name. -/
def register (hs : Handlers) (h : Handler) : Handlers :=
  ⟨hs.list.filter (·.name != h.name) ++ [h]⟩

def builtins : Handlers := (Handlers.mk []).register .sh |>.register .git

def find? (hs : Handlers) (name : String) : Option Handler := hs.list.find? (·.name == name)

def contains (hs : Handlers) (name : String) : Bool := (hs.find? name).isSome

def names (hs : Handlers) : List String := (hs.list.map Handler.name).mergeSort fun a b => decide (a ≤ b)

def render (hs : Handlers) : Command → Except BackendError String
  | .shell text => .ok text
  | .invoke name params =>
    match hs.find? name with
    | some h => h.render params
    | none => .error (.unknownCommand name)

def inspect (hs : Handlers) : String :=
  "StepHandlers \x7b handlers: [" ++ ", ".intercalate (hs.names.map Text.shownText) ++ "] \x7d"

end Handlers

end StageTree
