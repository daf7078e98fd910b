import StageTree.Group.Drain
import StageTree.Wait

/-! A group of tasks that wait and then end as a script says, played in virtual time. Time stands
still while something can happen, and then jumps to the next instant at which something can. -/

namespace StageTree

inductive Ending where
  | ok
  | fail (message : String)
  | cancel (message : String)
  | internal (message : String)
  | breakDown
  deriving DecidableEq, Repr

/-- A task that waits and then ends. One that observes its scope ends early when that is cancelled. -/
structure TaskScript where
  name : String
  delayMs : Nat := 0
  ending : Ending := .ok
  observes : Bool := false
  value : Int := 0
  deriving Repr

namespace TaskScript

/-- The instant at which a task that starts with the group is over its wait. -/
def wakes (t : TaskScript) : Nat := waitEnd 0 t.delayMs

def ends (t : TaskScript) : TaskEnd Int :=
  match t.ending with
  | .ok => .returned t.value none
  | .fail message => .returned t.value (some (.unit ⟨t.name, 1, .failed message⟩))
  | .cancel message => .returned t.value (some (.cancelled t.name message))
  | .internal message => .returned t.value (some (.internal message))
  | .breakDown => .broke "it broke down"

end TaskScript

/-- A group at an instant, with the cancellations of its parent scope that are still to come, the tasks
that went past their wait, and the instants at which word came of a task that cancelled the group. -/
structure Rehearsal where
  now : Nat := 0
  drain : Drain Int
  scripts : List TaskScript
  cancels : List (Nat × String) := []
  finished : List String := []
  cancellings : List (Nat × String) := []

namespace Rehearsal

def group (r : Rehearsal) : TaskGroup Int := r.drain.group

def start (failFast : Bool) (scripts : List TaskScript) (cancels : List (Nat × String)) :
    Option Rehearsal := do
  let f ← Forest.empty.step .new
  let g ← TaskGroup.under f 0 failFast true
  let drain ← (Drain.start g).run (scripts.map fun t => .group (.spawn t.name))
  some { drain, scripts, cancels := cancelsInOrder cancels }

def atWork (r : Rehearsal) : List (Nat × TaskScript) :=
  (r.scripts.zipIdx.filter fun (_, i) => (r.group.tasks[i]?).any fun t => t.state = .running).map
    fun (t, i) => (i, t)

def cancelNow? (r : Rehearsal) : Option Rehearsal :=
  match r.cancels with
  | (ms, reason) :: rest =>
    if ms ≤ r.now then
      (r.drain.step (.group (.scope (.cancel r.group.parent reason)))).map fun drain =>
        { r with drain, cancels := rest }
    else none
  | [] => none

def endNow? (r : Rehearsal) (i : Nat) (t : TaskScript) : Option Rehearsal :=
  match t.observes, r.group.reason? with
  | true, some reason =>
    (r.drain.step (.group (.finish i (.returned t.value (some (.cancelled t.name reason)))))).map fun drain =>
      { r with drain }
  | _, _ =>
    if t.wakes ≤ r.now then
      (r.drain.step (.group (.finish i t.ends))).map fun drain =>
        { r with drain, finished := r.finished ++ [t.name] }
    else none

/-- The owner's look at the next task, in a whole go of its own. -/
def lookNow? (r : Rehearsal) : Option Rehearsal := do
  let drain ← (← r.drain.step (.go goLimit)).step .look
  let told := (drain.group.told.drop r.group.told.length).map fun name => (r.now, name)
  some { r with drain, cancellings := r.cancellings ++ told }

def nextInstant? (r : Rehearsal) : Option Nat :=
  (r.atWork.map (fun p => p.2.wakes) ++ r.cancels.map Prod.fst).min?

/-- What happens next at this instant; tasks are joined only where someone does. -/
def turn? (joining : Bool) (r : Rehearsal) : Option Rehearsal :=
  r.cancelNow? <|> r.atWork.findSome? (fun (i, t) => r.endNow? i t) <|>
    if joining then r.lookNow? else none

/-- The group played until nothing can happen any more before an instant. -/
def play (joining : Bool) (stop : Option Nat) : Nat → Rehearsal → Rehearsal
  | 0, r => r
  | fuel + 1, r =>
    match r.turn? joining with
    | some r => play joining stop fuel r
    | none =>
      match r.nextInstant? with
      | some ms =>
        if stop.all (ms < ·) && (!joining || r.group.openCount ≠ 0) then
          play joining stop fuel { r with now := ms }
        else r
      | none => r

/-- More moves than a group of so many tasks and cancellations makes. -/
def moveBound (r : Rehearsal) : Nat := 3 * r.scripts.length + 2 * r.cancels.length + 2

/-- The group joined by its owner, who looks at every task before one of them goes on. -/
def joined (r : Rehearsal) : Rehearsal :=
  let looked := (List.range r.scripts.length).foldl (fun r _ => (r.lookNow?).getD r) r
  looked.play true none r.moveBound

/-- The group dropped by its owner at an instant without having been joined. -/
def droppedAt (r : Rehearsal) (ms : Nat) : Rehearsal :=
  let ms := waitEnd 0 ms
  let before := if ms = 0 then (List.range r.cancels.length).foldl (fun r _ => (r.cancelNow?).getD r) r
    else r.play false (some ms) r.moveBound
  { before with now := ms, drain := (before.drain.step (.group .drop)).getD before.drain }

end Rehearsal

end StageTree
