import StageTree.Unit.Runner

/-! A runner whose units do what a script says, and a journal of what became of them. -/

namespace StageTree

/-- What a unit does: it takes its time, and then fails with a message, or returns outputs. -/
structure Script where
  delayMs : Nat := 0
  failure : Option String := none
  outputs : Option (List String) := none
  deriving Repr, Inhabited

/-- The names of units by what became of them, in the order in which it did, and how many are at work,
now and at most. -/
structure Journal where
  started : List String := []
  completed : List String := []
  failed : List String := []
  cancelled : List String := []
  running : Nat := 0
  maxRunning : Nat := 0
  deriving DecidableEq, Repr, Inhabited

namespace Journal

def enter (j : Journal) (name : String) : Journal :=
  { j with started := j.started ++ [name], running := j.running + 1,
           maxRunning := max j.maxRunning (j.running + 1) }

/-- The journal after a unit is cancelled without having started. -/
def refuse (j : Journal) (name : String) : Journal := { j with cancelled := j.cancelled ++ [name] }

/-- The journal after a unit that started is cancelled. -/
def abandon (j : Journal) (name : String) : Journal :=
  { j with cancelled := j.cancelled ++ [name], running := j.running - 1 }

def fail (j : Journal) (name : String) : Journal :=
  { j with failed := j.failed ++ [name], running := j.running - 1 }

def complete (j : Journal) (name : String) : Journal :=
  { j with completed := j.completed ++ [name], running := j.running - 1 }

end Journal

/-- A unit that takes its time. -/
structure Asleep where
  unit : UnitOfWork
  script : Script
  wakes : Nat
  deriving Repr

namespace Script

/-- What a step returns where the script says nothing else. -/
def outputOf : Step → String
  | .single _ value => value
  | .multi command params => (Step.multi command params).shown

def finish (s : Script) (unit : UnitOfWork) (j : Journal) : Turn Journal Asleep :=
  match s.failure with
  | some message =>
    { world := j.fail unit.name
      progress := .returns (.error (.unit ⟨unit.name, 1, .failed message⟩)) }
  | none =>
    { world := j.complete unit.name
      progress := .returns (.ok (s.outputs.getD (unit.steps.map outputOf))) }

def start (s : Script) (unit : UnitOfWork) (l : Look) (j : Journal) : Turn Journal Asleep :=
  match l.cancelled with
  | some reason =>
    { world := j.refuse unit.name, progress := .returns (.error (.cancelled unit.name reason)) }
  | none =>
    if s.delayMs = 0 then s.finish unit (j.enter unit.name)
    else { world := j.enter unit.name, progress := .waits ⟨unit, s, waitEnd l.now s.delayMs⟩ }

/-- A look at a unit. A cancelled scope is found before the unit is found to be over its time. -/
def look (a : Asleep) (l : Look) (j : Journal) : Turn Journal Asleep :=
  match l.cancelled with
  | some reason =>
    { world := j.abandon a.unit.name, progress := .returns (.error (.cancelled a.unit.name reason)) }
  | none =>
    if a.wakes ≤ l.now then a.script.finish a.unit j else { world := j, progress := .waits a }

end Script

def Runner.scripted (scriptOf : String → Script) : Runner Journal Asleep where
  start unit := (scriptOf unit.name).start unit
  look := Script.look
  due a := some a.wakes
  looks := 1

end StageTree
