import StageTree.Group.Basic

/-! A group on the way to its end. Its tasks stand in a queue from the moment they are spawned, and the
owner looks at the one in front: one that is over is joined, and one at work is set aside until its end
brings it to the back of the queue. So the tasks that are over before the owner comes to them are joined
in the order in which they were spawned, whatever the order in which they ended.

The runtime hands over so many tasks in one go and no more, and fewer if the owner has been handed other
things in the same go. Those that the owner looks at beyond that are put off, and come back later in an
order that is left open. -/

namespace StageTree

/-- The number of tasks that one go hands over at most. -/
def goLimit : Nat := 128

/-- A group with the queue in which its tasks stand, those that were ever set aside, those that are put
off, and how many more this go hands over. Once its owner has begun to look no task is spawned. -/
structure Drain (α : Type) where
  group : TaskGroup α
  queue : List Nat := []
  aside : List Nat := []
  off : List Nat := []
  left : Nat := goLimit
  begun : Bool := false
  deriving DecidableEq, Repr

/-- What can happen to a group that is on the way: a move of its own, a look of the owner, a new go, which hands
over so many, or the return of a task that was put off. -/
inductive DrainMove (α : Type) where
  | group (move : GroupMove α)
  | look
  | go (left : Nat)
  | back (i : Nat)
  deriving DecidableEq, Repr

namespace Drain

variable {α : Type}

def start (g : TaskGroup α) : Drain α := { group := g }

/-- Whether a group makes a move without its owner's looking. -/
def admits (d : Drain α) : GroupMove α → Bool
  | .spawn _ => !d.begun
  | .join _ => false
  | _ => true

/-- The tasks that a move brings to the back of the queue. -/
def woken (d : Drain α) : GroupMove α → List Nat
  | .spawn _ => [d.group.tasks.length]
  | .finish i _ => if i ∈ d.aside then [i] else []
  | _ => []

/-- The owner's look at the task in front. -/
def look? (d : Drain α) : Option (Drain α) :=
  match d.queue with
  | [] => none
  | i :: queue =>
    if d.group.dropped then none
    else if d.left = 0 then some { d with queue, off := d.off ++ [i], begun := true }
    else match d.group.step (.join i) with
      | some g => some { d with group := g, queue, left := d.left - 1, begun := true }
      | none => some { d with queue, aside := d.aside ++ [i], begun := true }

def step (d : Drain α) : DrainMove α → Option (Drain α)
  | .group move =>
    if d.admits move then
      (d.group.step move).map fun g => { d with group := g, queue := d.queue ++ d.woken move }
    else none
  | .look => d.look?
  | .go left => if left ≤ goLimit then some { d with left } else none
  | .back i => if i ∈ d.off then some { d with queue := d.queue ++ [i], off := d.off.erase i } else none

def run (d : Drain α) (moves : List (DrainMove α)) : Option (Drain α) := moves.foldlM step d

end Drain

end StageTree
