import StageTree.Process.Dispatch
import StageTree.Run.Schedule
import StageTree.Source.Parser

/-! Runs of source text under a configuration. A configuration that breaks a rule, a source that does not
parse and a pipeline that breaks a rule end a run before it begins, in this order. -/

namespace StageTree

namespace Config

variable {M : Type}

/-- What the stages of a run have in common under a configuration. -/
def setting (c : Config) (p : Programs M) (vars : Bindings) : Setting M (Trial Hanging) :=
  ⟨c.runner p, vars⟩

def launch (c : Config) (p : Programs M) (vars : Bindings) (cancels : List (Nat × String)) (m : M)
    (source : String) : Run M (Trial Hanging) :=
  match c.fault? with
  | some f => .reject cancels f.error m
  | none =>
    match Source.parse source with
    | .error e => .reject cancels (.parse e) m
    | .ok pipeline => .validated (c.setting p vars) cancels m pipeline

end Config

end StageTree
