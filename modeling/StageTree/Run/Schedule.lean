import StageTree.Group.Drain
import StageTree.Pipeline.Validation
import StageTree.Run.Basic
import StageTree.Run.Outcome

/-! A run in virtual time. Time stands still while something can happen, and then jumps to the next
instant at which something can: a unit is due, or a cancellation is to come. At one instant the stage at
the top goes on first if its own unit is due. Then come the cancellations, and then the stages in the
order in which they became able to go on: one that becomes so waits behind the others. From there on the
stage at the top goes on when no other can. -/

namespace StageTree

namespace Activity

variable {U : Type}

/-- The branches that have ended and are not joined. -/
def joinable (f : Fan) (branches : List (Activity U)) : List Nat :=
  branches.zipIdx.filterMap fun (b, i) => if b.hasEnded && !f.hasJoined i then some i else none

mutual

/-- The positions of a tree whose stages can go on at an instant, each with what they can do. -/
def ready (due : U → Option Nat) (now : Nat) (scope : Option String) :
    Activity U → List (List Nat × List Act)
  | ⟨_, _, phase, fan, branches⟩ =>
    match phase, fan with
    | .waiting, _ => [([], [.start])]
    | .working u, _ => if scope.isSome || (due u).any (· ≤ now) then [([], [.look])] else []
    | .fanned, some f =>
      match joinable f branches with
      | [] => readyAll due now f.scope 0 branches
      | joins => ([], joins.map .join) :: readyAll due now f.scope 0 branches
    | _, _ => []

def readyAll (due : U → Option Nat) (now : Nat) (scope : Option String) (i : Nat) :
    List (Activity U) → List (List Nat × List Act)
  | [] => []
  | a :: as =>
    (ready due now scope a).map (fun (position, acts) => (i :: position, acts)) ++
      readyAll due now scope (i + 1) as

end

mutual

/-- The instants at which the units of a tree are due. -/
def dues (due : U → Option Nat) : Activity U → List Nat
  | ⟨_, _, phase, _, branches⟩ =>
    match phase with
    | .working u => (due u).toList
    | _ => duesAll due branches

def duesAll (due : U → Option Nat) : List (Activity U) → List Nat
  | [] => []
  | a :: as => dues due a ++ duesAll due as

end

end Activity

/-- A run in virtual time, with the cancellations from outside that are to come, the positions of the
stages that wait for their turn, those of all stages that have gone on, the latest last, and the number of
branches that the latest one has joined in one go. -/
structure Schedule (W U : Type) where
  run : Run W U
  cancels : List (Nat × String)
  queue : List (List Nat) := []
  acted : List (List Nat) := []
  joins : Nat := 0

namespace Schedule

variable {W U : Type}

/-- The stages that can go on, with what they can do. -/
def ready (s : Setting W U) (c : Schedule W U) : List (List Nat × List Act) :=
  c.run.present.elim [] (Activity.ready s.runner.due c.run.now c.run.cancelled)

/-- Positions in the order in which their stages last went on, those that have not gone on yet at the
end. -/
def byAge (c : Schedule W U) (positions : List (List Nat)) : List (List Nat) :=
  c.acted.filter positions.contains ++ positions.filter fun p => !c.acted.contains p

/-- Whether a position is met no later than another one when each is met before those below it. -/
def metBy : List Nat → List Nat → Bool
  | [], _ => true
  | _ :: _, [] => false
  | i :: p, j :: q => i < j || (i == j && metBy p q)

/-- Positions with those of one scope together, the scopes in the order of their groups. -/
def byScope (positions : List (List Nat)) : List (List Nat) :=
  positions.mergeSort fun p q => metBy p.dropLast q.dropLast

/-- The schedule with those stages in the queue that can go on, new ones at its end. -/
def requeue (s : Setting W U) (arrange : List (List Nat) → List (List Nat)) (c : Schedule W U) :
    Schedule W U :=
  let able := (c.ready s).map Prod.fst
  { c with queue := c.queue.filter able.contains ++
      arrange (c.byAge (able.filter fun p => p ≠ [] && !c.queue.contains p)) }

/-- The next cancellation from outside, if it is due. -/
def cancelNow? (s : Setting W U) (c : Schedule W U) : Option (Schedule W U) :=
  match c.cancels with
  | (ms, reason) :: rest =>
    if ms ≤ c.run.now then
      some ({ c with run := c.run.cancel reason, cancels := rest }.requeue s byScope)
    else none
  | [] => none

/-- What a stage does first of what it can do: of several branches it joins the one that ended first. -/
def firstAct (c : Schedule W U) (position : List Nat) (acts : List Act) : Option Act :=
  let joins := (c.acted.filter fun p => p.dropLast == position).filterMap fun p => p.getLast?.map .join
  (joins.find? acts.contains) <|> acts.head?

/-- The number of branches that a stage has joined in one go once it has acted. -/
def joinsAfter (c : Schedule W U) (position : List Nat) : Act → Nat
  | .join _ => (if c.acted.getLast? = some position then c.joins else 0) + 1
  | _ => 0

/-- The schedule once the stage in front has joined all the branches that one go hands over. It waits
behind the others, and the branches that were over come back in the reverse of their order. -/
def putOff (c : Schedule W U) (position : List Nat) (acts : List Act) : Schedule W U :=
  let (ended, others) := c.acted.partition fun p =>
    p.dropLast == position && (p.getLast?.map Act.join).any acts.contains
  { c with acted := others ++ ended.reverse, queue := c.queue.tail ++ [position], joins := 0 }

/-- The first stage in the queue goes on, and stays there as long as it can and its go lasts. An empty
queue is the turn of the stage at the top, which never has so many branches to join at once. -/
def goOn? (s : Setting W U) (c : Schedule W U) : Option (Schedule W U) := do
  let position := c.queue.headD []
  let acts ← (c.ready s).lookup position
  let act ← c.firstAct position acts
  let run ← c.run.step s (.stage position act 0)
  let acted :=
    if run.past.length = c.run.past.length then c.acted.filter (· ≠ position) ++ [position] else []
  let joins := c.joinsAfter position act
  let after := { c with run, acted, joins, queue := position :: c.queue.tail }
  some ((if position ≠ [] ∧ joins = goLimit then after.putOff position acts else after).requeue s byScope)

/-- Whether the stage at the top goes on before the cancellations of an instant. It does not at the
beginning of the run. -/
def leads (s : Setting W U) (c : Schedule W U) : Bool :=
  0 < c.run.now && c.queue.headD [] = [] && (c.ready s).any fun p => p.1 = []

/-- The next instant at which something can happen, if there is one. -/
def wait? (s : Setting W U) (c : Schedule W U) : Option (Schedule W U) := do
  let ms ← (c.run.present.elim [] (Activity.dues s.runner.due) ++ c.cancels.map Prod.fst).min?
  let run ← c.run.step s (.tick ms)
  some ({ c with run }.requeue s id)

/-- What happens next; nothing once the run has ended, or when it waits for what never comes. -/
def turn? (s : Setting W U) (c : Schedule W U) : Option (Schedule W U) :=
  (if c.leads s then c.goOn? s else none) <|> c.cancelNow? s <|> c.goOn? s <|> c.wait? s

def play (s : Setting W U) : Nat → Schedule W U → Run W U
  | 0, c => c.run
  | fuel + 1, c =>
    if c.run.verdict.isSome then c.run
    else match c.turn? s with
      | some c => play s fuel c
      | none => c.run

end Schedule

namespace Run

variable {W U : Type}

/-- More turns than a run of a pipeline takes: of each stage a start, the looks at its unit and a join,
and the cancellations, each of them at an instant of its own. -/
def turnBound (s : Setting W U) (p : Pipeline) (cancels : List (Nat × String)) : Nat :=
  2 * (p.stageCount * (s.runner.looks + 2) + cancels.length) + 1

/-- A run of a pipeline from its beginning to its end, whether or not the pipeline keeps the rules. -/
def execute (s : Setting W U) (cancels : List (Nat × String)) (w : W) (p : Pipeline) : Run W U :=
  Schedule.play s (turnBound s p cancels)
    { run := begin p w, cancels := cancelsInOrder cancels }

def outcome (r : Run W U) : Outcome :=
  { results := r.results, records := r.records, error := r.error?, durationMs := r.now }

/-- A run that is turned away before it begins. -/
def reject (cancels : List (Nat × String)) (e : RunError) (w : W) : Run W U :=
  { cancelled := (cancels.find? (·.1 = 0)).map Prod.snd, world := w, future := [],
    verdict := some (some e) }

/-- A run of a pipeline that keeps the rules; any other is turned away. -/
def validated (s : Setting W U) (cancels : List (Nat × String)) (w : W) (p : Pipeline) : Run W U :=
  match p.violation? with
  | some v => reject cancels (.validation v.error) w
  | none => execute s cancels w p

def inspect : String := "Engine \x7b .. \x7d"

end Run

end StageTree
