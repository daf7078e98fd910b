import StageTree.Pipeline.Form

/-! Units of work: the steps of one stage with what their execution needs. -/

namespace StageTree

/-- The steps of a stage, as they are handed to a runner. -/
structure UnitOfWork where
  name : String
  steps : List Step
  agent : Agent
  env : Bindings := .empty
  deriving DecidableEq, Repr, Inhabited

namespace UnitOfWork

def withEnv (u : UnitOfWork) (vars : List (String × String)) : UnitOfWork :=
  { u with env := u.env.insertAll vars }

/-- The unit of the own steps of a stage: the steps as they are, the stage's own agent, and the
variables of the run. -/
def ofStage (s : Stage) (vars : Bindings) : UnitOfWork :=
  { name := s.name, steps := s.steps, agent := s.effectiveAgent, env := vars }

def commands (u : UnitOfWork) : List Command := u.steps.map Step.toCommand

def toJson (u : UnitOfWork) : Json :=
  .object ([("name", .string u.name), ("steps", .array (u.steps.map Step.toJson)),
    ("agent", u.agent.toJson)] ++ if u.env.isEmpty then [] else [("env", u.env.toJson)])

def ofJson (origin : Json.Origin) : Json → Except Json.Misfit UnitOfWork :=
  Json.Record.ofJson origin <| mk
    <$> Json.Record.required "name" Json.toText
    <*> Json.Record.required "steps" (Json.toList Step.ofJson)
    <*> Json.Record.required "agent" Agent.ofJson
    <*> Json.Record.defaulted "env" .empty Bindings.ofJson

end UnitOfWork

end StageTree
