import StageTree.Group.Join
import StageTree.Results
import StageTree.Run.Trace

/-! A stage while it runs. It runs the branches of its group first, all at once, and joins them one by
one as they end; if none of them ended with an error it has its own steps run as one unit of work.
Every stage that starts ends, and leaves a record. -/

namespace StageTree

/-- Where a stage stands: not started, with its branches at work, with its own unit at work, or ended at
an instant with the outputs of its unit, if that returned any, and with an error, or none. -/
inductive Phase (U : Type) where
  | waiting
  | fanned
  | working (unit : U)
  | ended (ms : Nat) (lines : Option (List String)) (error : Option RunError)

/-- The group of a stage that entered it: why its scope is cancelled, if it is, and what is known from
the branches joined so far. -/
structure Fan where
  scope : Option String := none
  join : Join Results := {}

/-- A stage and the branches of its group, from the moment it enters the group. -/
structure Activity (U : Type) where
  stage : Stage
  since : Nat := 0
  phase : Phase U := .waiting
  fan : Option Fan := none
  branches : List (Activity U) := []

/-- What the stages of a run have in common: the runner of their units and the variables. -/
structure Setting (W U : Type) where
  runner : Runner W U
  vars : Bindings := .empty

/-- What a stage finds when it goes on: the instant, what chance gives, why the scope around it is
cancelled, if it is, and its path. -/
structure Moment where
  now : Nat
  draw : Nat
  scope : Option String
  path : List String

/-- A stage after it went on, with the world around it and what happened. -/
structure Played (W U : Type) where
  activity : Activity U
  world : W
  trace : List Entry := []

namespace Played

variable {W U : Type}

def after (p : Played W U) (entries : List Entry) : Played W U := { p with trace := entries ++ p.trace }

end Played

def Moment.look (m : Moment) : Look := ⟨m.now, m.scope, m.draw⟩

def Moment.entry (m : Moment) (what : Happening) : Entry := ⟨m.now, m.path, what⟩

namespace Fan

/-- What the branches of a group contribute: the results of those that were not cancelled, in the
order of their declaration. -/
def contributions (f : Fan) : List Results :=
  (f.join.ordered.filter fun r => !r.error.any RunError.isCancellation).filterMap Report.value

def results (f : Fan) : Results := .mergeBranches f.contributions

def hasJoined (f : Fan) (branch : Nat) : Bool := f.join.reports.any (·.index == branch)

end Fan

namespace Activity

variable {W U : Type}

/-- A stage that has not started. -/
def ofStage (s : Stage) : Activity U := { stage := s }

/-- The outputs of a stage's own unit, if it has returned any. -/
def lines (a : Activity U) : Option (List String) :=
  match a.phase with
  | .ended _ lines _ => lines
  | _ => none

def error? (a : Activity U) : Option RunError :=
  match a.phase with
  | .ended _ _ error => error
  | _ => none

def hasEnded (a : Activity U) : Bool :=
  match a.phase with
  | .ended _ _ _ => true
  | _ => false

def mergeInto (a : Activity U) (r : Results) : Results :=
  r.mergeStage a.stage.name (a.fan.map Fan.results) a.lines

mutual

/-- A stage once the scope around it is cancelled: the scope of its group is, unless it was before, and
so are those of the groups below. -/
def cancel (reason : String) : Activity U → Activity U
  | ⟨stage, since, phase, fan, branches⟩ =>
    match phase, fan with
    | .fanned, some ⟨none, join⟩ =>
      ⟨stage, since, .fanned, some ⟨some reason, join⟩, cancelAll reason branches⟩
    | phase, fan => ⟨stage, since, phase, fan, branches⟩

def cancelAll (reason : String) : List (Activity U) → List (Activity U)
  | [] => []
  | a :: as => cancel reason a :: cancelAll reason as

end

def finish (a : Activity U) (m : Moment) (lines : Option (List String)) (error : Option RunError) (w : W) :
    Played W U :=
  { activity := { a with phase := .ended m.now lines error }
    world := w
    trace := [m.entry (.ended (.finish m.path (.ofMillis a.since) (.ofMillis m.now) error))] }

def take (a : Activity U) (m : Moment) (t : Turn W U) : Played W U :=
  let p : Played W U := match t.progress with
    | .waits u => { activity := { a with phase := .working u }, world := t.world }
    | .returns (.ok lines) =>
      (a.finish m (some lines) none t.world).after [m.entry (.returned (.ok lines))]
    | .returns (.error e) => (a.finish m none (some e) t.world).after [m.entry (.returned (.error e))]
  p.after (t.notes.map fun n => m.entry (.noted n))

/-- A stage whose group is over, if it has one: its own unit starts, or it ends if it has no steps. -/
def toUnit (s : Setting W U) (a : Activity U) (m : Moment) (w : W) : Played W U :=
  if a.stage.hasSteps then
    let unit := UnitOfWork.ofStage a.stage s.vars
    (a.take m (s.runner.start unit m.look w)).after [m.entry (.submitted unit)]
  else a.finish m none none w

/-- A stage with its branches at work: once all of them are joined it ends with their error, or goes
on to its unit. -/
def gather (s : Setting W U) (a : Activity U) (f : Fan) (m : Moment) (w : W) : Played W U :=
  let a := { a with phase := .fanned, fan := some f }
  if f.join.reports.length < a.branches.length then { activity := a, world := w }
  else match f.join.error with
    | some e => a.finish m none (some e) w
    | none => a.toUnit s m w

/-- A stage that starts. Under a cancelled scope it ends at once. -/
def start (s : Setting W U) (a : Activity U) (m : Moment) (w : W) : Played W U :=
  let a := { a with since := m.now }
  let p := match m.scope, a.stage.parallel with
    | some reason, _ => a.finish m none (some (.cancelled a.stage.name reason)) w
    | none, some stages =>
      ({ a with branches := stages.map ofStage }.gather s {} m w).after [m.entry (.fanned stages.length)]
    | none, none => a.toUnit s m w
  p.after [m.entry .started]

def report (b : Activity U) (i : Nat) (error : Option RunError) : Report Results :=
  ⟨i, b.stage.name, some (b.mergeInto .empty), error⟩

/-- A stage that joins a branch. The first failure that is joined while the scope of a group is live
cancels it, if the group fails fast. -/
def joinReport (s : Setting W U) (a : Activity U) (f : Fan) (r : Report Results) (m : Moment) (w : W) :
    Played W U :=
  let join := f.join.add a.stage.failsFast f.scope r
  let joined := m.entry (.joined r.name r.error)
  if Join.cancels a.stage.failsFast f.scope r then
    let reason := Join.failureReason r.name
    ({ a with branches := cancelAll reason a.branches }.gather s ⟨some reason, join⟩ m w).after
      [joined, m.entry (.cancelling r.name)]
  else (a.gather s ⟨f.scope, join⟩ m w).after [joined]

end Activity

inductive Act where
  | start
  | look
  | join (branch : Nat)
  deriving DecidableEq, Repr

namespace Activity

variable {W U : Type}

def act (s : Setting W U) (a : Activity U) (m : Moment) (w : W) : Act → Option (Played W U)
  | .start =>
    match a.phase with
    | .waiting => some (a.start s m w)
    | _ => none
  | .look =>
    match a.phase with
    | .working u => some (a.take m (s.runner.look u m.look w))
    | _ => none
  | .join i =>
    match a.phase, a.fan, a.branches[i]? with
    | .fanned, some f, some b =>
      match b.phase with
      | .ended _ _ error => if f.hasJoined i then none else some (a.joinReport s f (b.report i error) m w)
      | _ => none
    | _, _, _ => none

/-- A stage after an act of the stage at a position below it: the empty position is its own, and any
other starts with the number of a branch. -/
def step (s : Setting W U) (x : Act) : List Nat → Activity U → Moment → W → Option (Played W U)
  | [], a, m, w => a.act s m w x
  | i :: position, a, m, w =>
    match a.phase, a.fan, a.branches[i]? with
    | .fanned, some f, some b =>
      (step s x position b { m with scope := f.scope, path := m.path ++ [b.stage.name] } w).map fun p =>
        { p with activity := { a with branches := a.branches.set i p.activity } }
    | _, _, _ => none

end Activity

end StageTree
