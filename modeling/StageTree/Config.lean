import StageTree.Error
import StageTree.File
import StageTree.Retry

/-! The configuration of a run: the policy of attempts, and the programs that execute commands. Every
field has a default. -/

namespace StageTree

open Json (Misfit Record)

inductive PullPolicy where
  | ifNotPresent
  | always
  | never
  deriving DecidableEq, Repr, Inhabited

/-- The programs that commands are executed with. -/
structure BackendConfig where
  hostShell : String := "bash"
  containerShell : String := "sh"
  dockerBinary : String := "docker"
  pullPolicy : PullPolicy := .ifNotPresent
  deriving DecidableEq, Repr, Inhabited

structure Config where
  retry : RetryPolicy := {}
  backend : BackendConfig := {}
  deriving DecidableEq, Repr, Inhabited

inductive ConfigFault where
  | unreadable (path reason : String)
  | unfit (misfit : Misfit)
  | noAttempts
  | noTime
  | blankProgram (field : String)
  deriving DecidableEq, Repr

namespace ConfigFault

def message : ConfigFault → String
  | unreadable path reason => "cannot read " ++ path ++ ": " ++ reason
  | unfit misfit => "invalid configuration: " ++ misfit.shown
  | noAttempts => "retry.max_attempts must be at least 1"
  | noTime => "retry.attempt_timeout_secs must be at least 1"
  | blankProgram field => "backend." ++ field ++ " must not be empty"

def error (f : ConfigFault) : RunError := .config f.message

end ConfigFault

/-- The first rule that a policy breaks. -/
def RetryPolicy.fault? (p : RetryPolicy) : Option ConfigFault :=
  if p.maxAttempts = 0 then some .noAttempts
  else if p.attemptTimeoutSecs = 0 then some .noTime
  else none

namespace PullPolicy

def name : PullPolicy → String
  | ifNotPresent => "if_not_present"
  | always => "always"
  | never => "never"

def ofName? : String → Option PullPolicy
  | "if_not_present" => some ifNotPresent
  | "always" => some always
  | "never" => some never
  | _ => none

end PullPolicy

namespace BackendConfig

def fault? (b : BackendConfig) : Option ConfigFault :=
  if Text.allBlank b.hostShell then some (.blankProgram "host_shell")
  else if Text.allBlank b.containerShell then some (.blankProgram "container_shell")
  else if Text.allBlank b.dockerBinary then some (.blankProgram "docker_binary")
  else none

def toJson (b : BackendConfig) : Json :=
  .object [("host_shell", .string b.hostShell), ("container_shell", .string b.containerShell),
    ("docker_binary", .string b.dockerBinary), ("pull_policy", .string b.pullPolicy.name)]

def ofJson (origin : Json.Origin) : Json → Except Misfit BackendConfig :=
  let d : BackendConfig := {}
  Record.ofJson origin <| mk
    <$> Record.defaulted "host_shell" d.hostShell Json.toText
    <*> Record.defaulted "container_shell" d.containerShell Json.toText
    <*> Record.defaulted "docker_binary" d.dockerBinary Json.toText
    <*> Record.defaulted "pull_policy" d.pullPolicy (Json.toVariant PullPolicy.ofName? origin)

end BackendConfig

namespace Config

def fault? (c : Config) : Option ConfigFault := c.retry.fault? <|> c.backend.fault?

def toJson (c : Config) : Json :=
  .object [("retry", c.retry.toJson), ("backend", c.backend.toJson)]

def ofJson (origin : Json.Origin) : Json → Except Misfit Config :=
  Record.ofJson origin <| mk
    <$> Record.defaulted "retry" {} (RetryPolicy.ofJson origin)
    <*> Record.defaulted "backend" {} (BackendConfig.ofJson origin)

def checked (c : Config) : Except ConfigFault Config :=
  match c.fault? with
  | some f => .error f
  | none => .ok c

def ofText (text : String) : Except ConfigFault Config :=
  match Json.decode ofJson text with
  | .error m => .error (.unfit m)
  | .ok c => c.checked

def ofFile (path : String) (c : Contents) : Except ConfigFault Config :=
  match c.text with
  | .error reason => .error (.unreadable path reason)
  | .ok text => ofText text

end Config

end StageTree
