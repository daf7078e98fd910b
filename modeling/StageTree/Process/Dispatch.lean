import StageTree.Process.Container
import StageTree.Process.Host
import StageTree.Unit.Retrying

/-! Units executed by programs, where their agents say: on the host, or in containers. -/

namespace StageTree

def Plan.ofUnit (config : BackendConfig) (unit : UnitOfWork) : Plan :=
  match unit.agent with
  | .none => .host .builtins config.hostShell unit
  | .container _ => .container .builtins config unit

def Config.runner {M : Type} (c : Config) (p : Programs M) : Runner M (Trial Hanging) :=
  .retrying c.retry (.planned p (.ofUnit c.backend))

end StageTree
