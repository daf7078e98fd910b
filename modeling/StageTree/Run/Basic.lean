import StageTree.Run.Activity

/-! A run of a pipeline. Its stages run in turn until one of them ends with an error. What can happen
next is a choice of moves: one of the stages at work goes on, the run is cancelled from outside, or
time passes. -/

namespace StageTree

abbrev Verdict := Option RunError

/-- A run at an instant: why it is cancelled from outside, if it is, the stages that have ended, the one
at work, those to come, and how it ended, once it has. -/
structure Run (W U : Type) where
  now : Nat := 0
  cancelled : Option String := none
  world : W
  results : Results := .empty
  past : List (Activity U) := []
  present : Option (Activity U) := none
  future : List Stage
  verdict : Option Verdict := none
  trace : List Entry := []

/-- What can happen to a run: the stage at a position goes on, the run is cancelled for a reason, or it
becomes later. -/
inductive Move where
  | stage (position : List Nat) (act : Act) (draw : Nat)
  | cancel (reason : String)
  | tick (ms : Nat)
  deriving DecidableEq, Repr

namespace Run

variable {W U : Type}

def entry (r : Run W U) (what : Happening) : Entry := ⟨r.now, [], what⟩

/-- The run with its next stage, or at its end. -/
def advance (r : Run W U) : Run W U :=
  match r.future with
  | [] => { r with present := none, verdict := some none, trace := r.trace ++ [r.entry .runCompleted] }
  | s :: future => { r with present := some (.ofStage s), future }

def begin (p : Pipeline) (w : W) : Run W U :=
  advance { world := w, future := p.stages, trace := [⟨0, [], .runStarted p.stageCount⟩] }

def take (r : Run W U) (p : Played W U) : Run W U :=
  let r := { r with world := p.world, trace := r.trace ++ p.trace }
  match p.activity.phase with
  | .ended _ _ error =>
    let r := { r with results := p.activity.mergeInto r.results, past := r.past ++ [p.activity] }
    match error with
    | none => r.advance
    | some e =>
      { r with present := none, verdict := some (some e),
               trace := r.trace ++ [r.entry (.runFailed p.activity.stage.name e)] }
  | _ => { r with present := some p.activity }

/-- What the stage at work finds. -/
def moment (r : Run W U) (a : Activity U) (draw : Nat) : Moment :=
  ⟨r.now, draw, r.cancelled, [a.stage.name]⟩

/-- The run cancelled from outside, for a reason that stands. -/
def cancel (r : Run W U) (reason : String) : Run W U :=
  match r.cancelled with
  | some _ => r
  | none => { r with cancelled := some reason, present := r.present.map (Activity.cancel reason) }

/-- The run after a move, if it is possible. Nothing happens to a run that has ended. -/
def step (s : Setting W U) (r : Run W U) (move : Move) : Option (Run W U) :=
  match r.verdict, move with
  | some _, _ => none
  | none, .stage position x draw =>
    r.present.bind fun a => (a.step s x position (r.moment a draw) r.world).map r.take
  | none, .cancel reason => some (r.cancel reason)
  | none, .tick ms => if r.now < ms then some { r with now := ms } else none

def records (r : Run W U) : List StageRecord := r.trace.filterMap Entry.record?

def events (r : Run W U) : List (Nat × Event) :=
  r.trace.filterMap fun e => e.event?.map fun event => (e.ms, event)

def logLines (r : Run W U) : List (Level × String) := r.trace.flatMap Entry.lines

def error? (r : Run W U) : Option RunError := r.verdict.join

end Run

end StageTree
