import StageTree.Proofs.Activity.Yield
import StageTree.Unit.Scripted

/-! What becomes of the stages of a pipeline whose units follow scripts, by recursion on the stage tree. The
fate of a stage follows from the instant at which it starts and from a deadline: the instant at which the
scope around it is cancelled, if it ever is. The branches of a group that fails fast have two fates, one
under the deadline of the group, which says what its first failure is, and one that ends with it. -/

namespace StageTree

namespace Script

def status (s : Script) : Status := if s.failure.isSome then .fail else .ok

def lines? (s : Script) (unit : UnitOfWork) : Option (List String) :=
  if s.failure.isSome then none else some (s.outputs.getD (unit.steps.map outputOf))

def error? (s : Script) (unit : UnitOfWork) : Option RunError :=
  s.failure.map fun message => .unit ⟨unit.name, 1, .failed message⟩

end Script

/-- What becomes of a stage: when it starts and ends, how it ends, what its own unit returns, and what
becomes of its branches if it enters its group. -/
structure Fate where
  name : String
  since : Nat
  ends : Nat
  status : Status := .ok
  lines : Option (List String) := none
  branches : List Fate := []

namespace Fate

/-- A stage that finds its scope cancelled when it starts. -/
def refused (name : String) (now : Nat) : Fate := { name, since := now, ends := now, status := .cancel }

/-- A stage whose unit is at work until it is over, or until a deadline that comes before. -/
def working (f : Fate) (script : Script) (unit : UnitOfWork) (wakes : Nat) (deadline : Option Nat) : Fate :=
  match deadline.filter (· < wakes) with
  | some d => { f with ends := d, status := .cancel, lines := none }
  | none => { f with ends := wakes, status := script.status, lines := script.lines? unit }

def latest (fates : List Fate) : Nat := fates.foldr (fun f n => max f.ends n) 0

def firstFailure? (fates : List Fate) : Option Nat :=
  ((fates.filter (·.status = .fail)).map ends).min?

/-- The error of the branch that fails first. -/
def blame (fates : List Fate) (errors : List (Option RunError)) : Option RunError :=
  ((fates.zip errors).find? fun f => f.1.status = .fail && firstFailure? fates = some f.1.ends).bind Prod.snd

/-- A deadline, or the first failure of a branch if that comes before and the group fails fast. -/
def cutoff (failFast : Bool) (deadline : Option Nat) (fates : List Fate) : Option Nat :=
  if failFast then
    match firstFailure? fates with
    | some ms => some (deadline.elim ms (min · ms))
    | none => deadline
  else deadline

mutual

/-- What the records of a stage and of those below it say: path, status, start and end. -/
def rows (above : List String) : Fate → List (List String × Status × Instant × Instant)
  | ⟨name, since, ends, status, _, branches⟩ =>
    (above ++ [name], status, .ofMillis since, .ofMillis ends) :: rowsAll (above ++ [name]) branches

def rowsAll (above : List String) : List Fate → List (List String × Status × Instant × Instant)
  | [] => []
  | f :: fs => rows above f ++ rowsAll above fs

end

mutual

/-- The entries that a stage adds to the results around it: one, or none. -/
def entries : Fate → List (String × StageValue)
  | ⟨name, _, _, _, lines, branches⟩ =>
    (StageValue.ofParts name (if branches.isEmpty then none else some (kept branches)) lines).toList.map
      fun v => (name, v)

/-- The entries of the branches that were not cancelled. -/
def kept : List Fate → List (String × StageValue)
  | [] => []
  | f :: fs => (if f.status = .cancel then [] else entries f) ++ kept fs

end

end Fate

namespace Stage

variable (scriptOf : String → Script) (vars : Bindings)

/-- A stage whose group is over, if it has one, from an instant on. -/
def onward (s : Stage) (f : Fate) (now : Nat) (deadline : Option Nat) : Fate :=
  if s.hasSteps then
    f.working (scriptOf s.name) (.ofStage s vars) (waitEnd now (scriptOf s.name).delayMs) deadline
  else { f with ends := now }

/-- A stage with its group, from what becomes of the branches: it fails if one of them does, is cancelled
if one of them is, and else goes on to its unit. -/
def settled (s : Stage) (since : Nat) (branches : List Fate) (deadline : Option Nat) : Fate :=
  let f : Fate := { name := s.name, since, ends := Fate.latest branches, branches }
  if branches.any (·.status = .fail) then { f with status := .fail }
  else if branches.any (·.status = .cancel) then { f with status := .cancel }
  else s.onward scriptOf vars f f.ends deadline

/-- A stage with its group, from what becomes of the branches under each deadline. -/
def grouped (s : Stage) (since : Nat) (branches : Option Nat → List Fate) (deadline : Option Nat) : Fate :=
  s.settled scriptOf vars since (branches (Fate.cutoff s.failsFast deadline (branches deadline))) deadline

mutual

/-- What becomes of a stage that starts at an instant, under a deadline. -/
def fate (since : Nat) : Stage → Option Nat → Fate
  | ⟨name, agent, steps, failFast, parallel⟩, deadline =>
    let s : Stage := ⟨name, agent, steps, failFast, parallel⟩
    if deadline.any (· ≤ since) then .refused name since
    else match fateGroup since parallel with
      | none => s.onward scriptOf vars { name, since, ends := since } since deadline
      | some branches => s.grouped scriptOf vars since branches deadline

def fateGroup (since : Nat) : Option (List Stage) → Option (Option Nat → List Fate)
  | none => none
  | some stages => some (fateAll since stages)

def fateAll (since : Nat) : List Stage → Option Nat → List Fate
  | [], _ => []
  | s :: ss, deadline => fate since s deadline :: fateAll since ss deadline

end

mutual

/-- The error of a stage that starts at an instant and is never cancelled from outside. -/
def failure? (since : Nat) : Stage → Option RunError
  | ⟨name, agent, steps, failFast, parallel⟩ =>
    let s : Stage := ⟨name, agent, steps, failFast, parallel⟩
    (Fate.blame (fateAll scriptOf vars since s.branches none) (failureGroup since parallel)).or
      (if s.hasSteps then (scriptOf name).error? (.ofStage s vars) else none)

def failureGroup (since : Nat) : Option (List Stage) → List (Option RunError)
  | none => []
  | some stages => failureAll since stages

def failureAll (since : Nat) : List Stage → List (Option RunError)
  | [] => []
  | s :: ss => failure? since s :: failureAll since ss

end

/-- What becomes of stages that run in turn, up to the first one that does not end well. -/
def inTurn (deadline : Option Nat) (since : Nat) : List Stage → List Fate
  | [] => []
  | s :: ss =>
    let f := s.fate scriptOf vars since deadline
    f :: if f.status = .ok then inTurn deadline f.ends ss else []

mutual

/-- What becomes of a stage that starts at the instant at which the run is cancelled. If it went on before the
cancellation came, as those at the positions `begun` did, its branches are cancelled with it. -/
def overtaken (now : Nat) (begun : List Nat → Bool) : Stage → Fate
  | ⟨name, _, _, _, parallel⟩ =>
    { name, since := now, ends := now, status := .cancel,
      branches := if begun [] then overtakenGroup now begun parallel else [] }

def overtakenGroup (now : Nat) (begun : List Nat → Bool) : Option (List Stage) → List Fate
  | none => []
  | some stages => overtakenAll now begun 0 stages

def overtakenAll (now : Nat) (begun : List Nat → Bool) (i : Nat) : List Stage → List Fate
  | [] => []
  | s :: ss => overtaken now (fun position => begun (i :: position)) s :: overtakenAll now begun (i + 1) ss

end

/-- The error of stages that run in turn and are never cancelled from outside. -/
def failureInTurn (since : Nat) : List Stage → Option RunError
  | [] => none
  | s :: ss =>
    let f := s.fate scriptOf vars since none
    if f.status = .ok then failureInTurn f.ends ss else s.failure? scriptOf vars since

end Stage

namespace Pipeline

variable (scriptOf : String → Script) (vars : Bindings)

/-- What becomes of the stages of a pipeline if the run is cancelled at an instant, or never. -/
def fates (p : Pipeline) (deadline : Option Nat) : List Fate := Stage.inTurn scriptOf vars deadline 0 p.stages

/-- What becomes of the stages of a pipeline if the run is cancelled at its first instant, when the stages at
some positions have gone on already. -/
def overtaken (p : Pipeline) (begun : List Nat → Bool) : List Fate :=
  p.stages.head?.toList.map (Stage.overtaken 0 begun)

/-- The error of a pipeline whose run is never cancelled from outside. -/
def failure? (p : Pipeline) : Option RunError := Stage.failureInTurn scriptOf vars 0 p.stages

end Pipeline

end StageTree
