import StageTree.Backend.Handler
import StageTree.Process.Plan

/-! Units on the host: each step's shell text is run by the host shell, with the variables of the unit in
its environment. A step is rendered when its turn comes. -/

namespace StageTree

namespace Plan

def hostCall (shell : String) (env : Bindings) (text : String) : Call := ⟨shell, ["-c", text], env⟩

/-- Commands run on the host one after the other, after those whose outputs are given. -/
def hostFrom (handlers : Handlers) (shell : String) (env : Bindings) (outputs : List String) :
    List Command → Plan
  | [] => .done none (.ok outputs)
  | c :: cs =>
    match handlers.render c with
    | .error e => .done none (.error e)
    | .ok text =>
      run (hostCall shell env text) none fun out =>
        if out.succeeded then hostFrom handlers shell env (outputs ++ [Text.trimEnd out.text]) cs
        else .done none (.error (.commandFailed text out.reportedCode (Text.trim out.complaint)))

def host (handlers : Handlers) (shell : String) (unit : UnitOfWork) : Plan :=
  hostFrom handlers shell unit.env [] unit.commands

end Plan

end StageTree
