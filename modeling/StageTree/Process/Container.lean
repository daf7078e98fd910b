import StageTree.Backend.Handler
import StageTree.Config
import StageTree.Process.Plan

/-! Units in containers, each in one of its own. All steps are rendered first. Then the image is made
sure of, the container is created and started, each shell text is run in it, and it is stopped and
removed. From its creation until it is removed, a unit that fails or is given up has its container
removed by force. -/

namespace StageTree

namespace Plan

/-- A call of the container program that has to succeed, as a step in the life of a container; the
plan goes on with the name or message that it printed. -/
def lifecycle (binary operation image : String) (args : List String) (cleanup : Option Call)
    (next : String → Plan) : Plan :=
  run ⟨binary, args, .empty⟩ cleanup fun out =>
    if out.succeeded then next (Text.trim out.text)
    else .done cleanup (.error (.container operation image (Text.trim out.complaint)))

def ensureImage (binary : String) (policy : PullPolicy) (image : String) (next : Plan) : Plan :=
  let pull := lifecycle binary "pull" image ["pull", image] none fun _ => next
  match policy with
  | .never => next
  | .always => pull
  | .ifNotPresent =>
    run ⟨binary, ["image", "inspect", image], .empty⟩ none fun out => if out.succeeded then next else pull

/-- The arguments that create a container whose entry point is a shell. -/
def createArgs (shell image : String) : List String := ["create", "-it", "--entrypoint", shell, image]

/-- The arguments that run a shell text in a container, the variables first. -/
def execArgs (id shell : String) (env : Bindings) (text : String) : List String :=
  "exec" :: env.entries.flatMap (fun b => ["-e", b.1 ++ "=" ++ b.2]) ++ [id, shell, "-c", text]

def forceRemoval (binary id : String) : Call := ⟨binary, ["rm", "-f", id], .empty⟩

/-- Shell texts run in a container one after the other, after those whose outputs are given. -/
def execFrom (binary id shell : String) (env : Bindings) (outputs : List String)
    (next : List String → Plan) : List String → Plan
  | [] => next outputs
  | text :: texts =>
    let cleanup := some (forceRemoval binary id)
    run ⟨binary, execArgs id shell env text, .empty⟩ cleanup fun out =>
      if out.succeeded then
        execFrom binary id shell env (outputs ++ [Text.withoutControl out.text]) next texts
      else .done cleanup
        (.error (.commandFailed text out.reportedCode (Text.withoutControl out.complaint)))

/-- A container from its start to its removal, whose failure is passed over. -/
def inContainer (binary id shell image : String) (env : Bindings) (texts : List String) : Plan :=
  let cleanup := some (forceRemoval binary id)
  lifecycle binary "start" image ["start", id] cleanup fun _ =>
    execFrom binary id shell env [] (fun outputs =>
      lifecycle binary "stop" image ["stop", id] cleanup fun _ =>
        .call ⟨binary, ["rm", id], .empty⟩ cleanup fun _ => .done none (.ok outputs)) texts

def container (handlers : Handlers) (config : BackendConfig) (unit : UnitOfWork) : Plan :=
  match unit.agent.image? with
  | none => .done none (.error (.container "create" "" ("unit '" ++ unit.name ++ "' has no container agent")))
  | some image =>
    match unit.commands.mapM handlers.render with
    | .error e => .done none (.error e)
    | .ok texts =>
      ensureImage config.dockerBinary config.pullPolicy image <|
        lifecycle config.dockerBinary "create" image (createArgs config.containerShell image) none fun id =>
          inContainer config.dockerBinary id config.containerShell image unit.env texts

end Plan

end StageTree
