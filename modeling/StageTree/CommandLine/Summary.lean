import StageTree.Pipeline.Stage

/-! The stage tree as lines of text, one for each stage. -/

namespace StageTree

namespace Stage

/-- What a line says of a stage apart from its place in the tree. -/
def summary (s : Stage) : String :=
  s.name ++ " [agent: " ++ s.effectiveAgent.shown ++ ", steps: " ++ toString s.steps.length ++
    (if s.parallel.isSome then ", failFast: " ++ toString s.failsFast else "") ++ "]"

def summaryLine (path : List String) (s : Stage) : String :=
  String.ofList (List.replicate (2 * path.length) ' ') ++ s.summary ++ "\n"

end Stage

/-- The lines of a pipeline: its agent, and then every stage, each before its branches. -/
def Pipeline.summary (p : Pipeline) : String :=
  "pipeline [agent: " ++ p.agent.shown ++ "]\n" ++
    String.join (p.preorder.map fun (path, s) => s.summaryLine path)

end StageTree
