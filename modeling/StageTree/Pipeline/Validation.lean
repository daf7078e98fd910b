import StageTree.Pipeline.Stage
import StageTree.Text.Blank

/-! The rules that a stage tree has to keep before it runs, and the first place where one is broken.
The rules of the whole pipeline come first; a list of stages is searched for equal names before its
members are looked at, in order; a stage is looked at before its branches. -/

namespace StageTree

inductive Violation where
  | noStages
  | blankImage (owner : String)
  | sameName (parent name : String)
  | blankName
  | noContent (stage : String)
  | repeatedKey (stage key : String)
  | emptyGroup (stage : String)
  | ownNameBranch (stage : String)
  deriving DecidableEq, Repr

namespace Violation

def message : Violation → String
  | noStages => "Pipeline has no stages"
  | blankImage owner => "Agent of '" ++ owner ++ "' has an empty image"
  | sameName parent name => "Duplicate stage name '" ++ name ++ "' under '" ++ parent ++ "'"
  | blankName => "Stage name must not be empty"
  | noContent stage => "Stage '" ++ stage ++ "' has neither steps nor a parallel block"
  | repeatedKey stage key => "Stage '" ++ stage ++ "' has a step with duplicate parameter '" ++ key ++ "'"
  | emptyGroup stage => "Parallel block of stage '" ++ stage ++ "' is empty"
  | ownNameBranch stage => "Stage '" ++ stage ++ "' has steps and a parallel branch with its own name"

/-- The names of the stages involved, the outermost first. -/
def stages : Violation → List String
  | noStages => []
  | blankImage owner => [owner]
  | sameName parent name => [parent, name]
  | blankName => []
  | noContent stage => [stage]
  | repeatedKey stage _ => [stage]
  | emptyGroup stage => [stage]
  | ownNameBranch stage => [stage]

end Violation

/-- A violation that arises under a condition. -/
def Violation.when (v : Violation) (b : Bool) : Option Violation := if b then some v else none

/-- An agent whose image shows nothing. -/
def Agent.hasBlankImage : Agent → Bool
  | none => false
  | container image => Text.allBlank image

/-- The first name that some stage before it has, `seen` being the names before the list. -/
def Stage.repeatedNameFrom (seen : List String) : List Stage → Option String
  | [] => none
  | s :: ss => if seen.contains s.name then some s.name else repeatedNameFrom (s.name :: seen) ss

/-- The first two stages of one name under a parent. -/
def Stage.siblingViolation? (parent : String) (stages : List Stage) : Option Violation :=
  (repeatedNameFrom [] stages).map (.sameName parent)

/-- What is wrong with a stage by itself, its branches' own content apart. -/
def Stage.ownViolation? (s : Stage) : Option Violation :=
  Violation.blankName.when (Text.allBlank s.name)
    <|> (Violation.blankImage s.name).when s.effectiveAgent.hasBlankImage
    <|> (Violation.noContent s.name).when (s.steps.isEmpty && s.parallel.isNone)
    <|> (s.steps.findSome? Step.repeatedKey?).map (.repeatedKey s.name)
    <|> (Violation.emptyGroup s.name).when (s.parallel == some [])
    <|> (Violation.ownNameBranch s.name).when (s.hasSteps && s.branches.any (·.name == s.name))
    <|> siblingViolation? s.name s.branches

mutual

/-- The first broken rule in the tree of a stage. -/
def Stage.violation? : Stage → Option Violation
  | ⟨name, agent, steps, failFast, parallel⟩ =>
    ownViolation? ⟨name, agent, steps, failFast, parallel⟩ <|> groupViolation? parallel

def Stage.groupViolation? : Option (List Stage) → Option Violation
  | none => none
  | some branches => memberViolation? branches

def Stage.memberViolation? : List Stage → Option Violation
  | [] => none
  | s :: ss => violation? s <|> memberViolation? ss

end

def Pipeline.violation? (p : Pipeline) : Option Violation :=
  Violation.noStages.when p.stages.isEmpty
    <|> (Violation.blankImage "pipeline").when p.agent.hasBlankImage
    <|> Stage.siblingViolation? "pipeline" p.stages
    <|> Stage.memberViolation? p.stages

end StageTree
