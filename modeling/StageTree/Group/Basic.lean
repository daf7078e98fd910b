import StageTree.Group.Join
import StageTree.Scope.Forest

/-! A group of tasks that share a cancellation scope. Tasks end in any order and are joined in any
order; with `failFast` the first failure that is joined while the scope is live cancels it. A group
that goes away with tasks not joined cancels its scope and ends them.

What tasks and others do with scopes meanwhile is left open: every operation on scopes may come
between two moves of the group, except that nobody else gives up the handle that the group holds on its
own scope. -/

namespace StageTree

/-- How a task ended: it returned a value, with an error or none, or it broke down. -/
inductive TaskEnd (α : Type) where
  | returned (value : α) (error : Option RunError)
  | broke (message : String)
  deriving DecidableEq, Repr

def TaskEnd.report {α : Type} (index : Nat) (name : String) : TaskEnd α → Report α
  | .returned value error => ⟨index, name, some value, error⟩
  | .broke message =>
    ⟨index, name, none, some (.internal ("Task '" ++ name ++ "' did not complete: " ++ message))⟩

/-- How a task stands: at work, ended but not joined, joined, or torn down. -/
inductive TaskState (α : Type) where
  | running
  | ended (how : TaskEnd α)
  | joined
  | aborted
  deriving DecidableEq, Repr

structure GroupTask (α : Type) where
  name : String
  state : TaskState α := .running
  deriving DecidableEq, Repr

/-- Whether a task is still to be joined. -/
def GroupTask.isOpen {α : Type} (t : GroupTask α) : Bool :=
  match t.state with
  | .running => true
  | .ended _ => true
  | _ => false

/-- The task without the chance to go on. -/
def GroupTask.tearDown {α : Type} (t : GroupTask α) : GroupTask α :=
  if t.isOpen then { t with state := .aborted } else t

/-- A group, with all scopes there are. `parent` and `scope` are handles, of the scope that the
group was made under and of its own. `hook` says whether someone still waits to be told which task
cancels the group, and `told` whom they were told of. -/
structure TaskGroup (α : Type) where
  forest : Forest
  parent : Nat
  scope : Nat
  failFast : Bool
  hook : Bool := false
  told : List String := []
  tasks : List (GroupTask α) := []
  join : Join α := {}
  dropped : Bool := false
  deriving DecidableEq, Repr

inductive GroupMove (α : Type) where
  | spawn (name : String)
  | scope (op : ScopeOp)
  | work (task : Nat) (op : ScopeOp)
  | finish (task : Nat) (how : TaskEnd α)
  | join (task : Nat)
  | drop
  deriving DecidableEq, Repr

namespace TaskGroup

variable {α : Type}

/-- A group under the scope of a handle, with someone to be told when a task cancels it or nobody. -/
def under (f : Forest) (parent : Nat) (failFast : Bool) (hook : Bool := false) : Option (TaskGroup α) :=
  (f.step (.child parent)).map fun g =>
    { forest := g, parent, scope := f.handles.length, failFast, hook }

/-- Why the scope of the group is cancelled, if it is. -/
def reason? (g : TaskGroup α) : Option String := (g.forest.scopeOf? g.scope).bind g.forest.reason?

/-- Why the scope that the group was made under is cancelled, if it is. -/
def parentReason? (g : TaskGroup α) : Option String := (g.forest.scopeOf? g.parent).bind g.forest.reason?

/-- The number of tasks still to be joined. -/
def openCount (g : TaskGroup α) : Nat := g.tasks.countP GroupTask.isOpen

def cancel (g : TaskGroup α) (reason : String) : TaskGroup α :=
  match g.forest.step (.cancel g.scope reason) with
  | some f => { g with forest := f }
  | none => g

/-- The group once those who wait to be told which task cancels it are told. -/
def tell (g : TaskGroup α) (name : String) : TaskGroup α :=
  if g.hook then { g with hook := false, told := g.told ++ [name] } else g

def joinReport (g : TaskGroup α) (r : Report α) : TaskGroup α :=
  let after := { g with
    tasks := g.tasks.modify r.index fun t => { t with state := .joined }
    join := g.join.add g.failFast g.reason? r }
  if Join.cancels g.failFast g.reason? r then (after.cancel (Join.failureReason r.name)).tell r.name
  else after

/-- What is done with scopes while the group keeps its own. -/
def operate (g : TaskGroup α) (op : ScopeOp) : Option (TaskGroup α) :=
  if op = .drop g.scope then none else (g.forest.step op).map fun f => { g with forest := f }

/-- Why the scope of a group is cancelled that goes away too early. -/
def dropReason : String := "task group dropped"

def step (g : TaskGroup α) : GroupMove α → Option (TaskGroup α)
  | .spawn name => if g.dropped then none else some { g with tasks := g.tasks ++ [{ name }] }
  | .scope op => g.operate op
  | .work i op =>
    match g.tasks[i]? with
    | some { state := .running, .. } => g.operate op
    | _ => none
  | .finish i how =>
    match g.tasks[i]? with
    | some { name, state := .running } =>
      some { g with tasks := g.tasks.set i { name, state := .ended how } }
    | _ => none
  | .join i =>
    match g.tasks[i]? with
    | some { name, state := .ended how } =>
      if g.dropped then none else some (g.joinReport (how.report i name))
    | _ => none
  | .drop =>
    if g.dropped then none
    else if g.openCount = 0 then some { g with dropped := true }
    else
      let torn := { g with dropped := true, tasks := g.tasks.map GroupTask.tearDown }
      some (torn.cancel dropReason)

def run (g : TaskGroup α) (moves : List (GroupMove α)) : Option (TaskGroup α) := moves.foldlM step g

def inspect (g : TaskGroup α) : String :=
  "TaskGroup \x7b task_count: " ++ toString g.openCount ++ ", fail_fast: " ++ toString g.failFast ++
    ", cancelled: " ++ toString g.reason?.isSome ++ " \x7d"

end TaskGroup

end StageTree
