import StageTree.Backend.Basic

/-! Backends whose attempts are made up beforehand: one that keeps every unit it is handed and answers
the commands, and one whose answers are listed attempt by attempt. -/

namespace StageTree

/-- An attempt that takes its time before its result is known. -/
structure Pending where
  ends : Nat
  result : AttemptResult
  deriving Repr

/-- The result of an attempt that takes some time, at once if it takes none. -/
def Pending.begin (now delayMs : Nat) (result : AttemptResult) : Progress Pending AttemptResult :=
  if delayMs = 0 then .returns result else .waits ⟨waitEnd now delayMs, result⟩

def Pending.look (p : Pending) (now : Nat) : Progress Pending AttemptResult :=
  if p.ends ≤ now then .returns p.result else .waits p

/-- What a backend was asked for: every unit in turn, and how many attempts were given up. -/
structure CallLog where
  calls : List UnitOfWork := []
  dropped : Nat := 0
  deriving DecidableEq, Repr, Inhabited

def CallLog.attempts (c : CallLog) : Nat := c.calls.length

/-- What a backend that keeps its calls answers: an error always, or for the first attempts, and else
the text or name of each command. -/
structure CallScript where
  failingFirst : Nat := 0
  error : Option BackendError := none
  delayMs : Nat := 0

def CallScript.result (s : CallScript) (attempt : Nat) (unit : UnitOfWork) : AttemptResult :=
  match s.error with
  | some e => .error e
  | none =>
    if attempt ≤ s.failingFirst then
      .error (.commandFailed unit.name 1 ("attempt " ++ toString attempt ++ " failed"))
    else .ok (unit.commands.map Command.name)

def Backend.recording (s : CallScript) : Backend CallLog Pending where
  start unit now log :=
    let log := { log with calls := log.calls ++ [unit] }
    (log, Pending.begin now s.delayMs (s.result log.attempts unit))
  look p now log := (log, p.look now)
  drop _ log := { log with dropped := log.dropped + 1 }
  due p := some p.ends

/-- One attempt: how long it takes, and what it returns. -/
structure AttemptScript where
  delayMs : Nat := 0
  error : Option BackendError := none
  outputs : List String := []
  deriving Repr

/-- How many attempts were made at the units of each name, in the order of the names. -/
abbrev AttemptCounts := List (String × Nat)

namespace AttemptCounts

def of (counts : AttemptCounts) (name : String) : Nat := (counts.lookup name).getD 0

def add (name : String) : AttemptCounts → AttemptCounts
  | [] => [(name, 1)]
  | (k, n) :: rest => if k = name then (k, n + 1) :: rest else (k, n) :: add name rest

end AttemptCounts

/-- What the attempt of a number returns, and after how long: the last script of a list stands for all
attempts after it, and a unit without scripts returns the name of each step. -/
def AttemptScript.pick (scripts : Option (List AttemptScript)) (attempt : Nat) (unit : UnitOfWork) :
    Nat × AttemptResult :=
  match scripts.bind fun l => (l.drop (attempt - 1)).head? <|> l.getLast? with
  | some s => (s.delayMs, s.error.elim (.ok s.outputs) .error)
  | none => (0, .ok (unit.steps.map Step.name))

/-- The backend whose attempts are listed for the units of each name. -/
def Backend.listed (scripts : List (String × List AttemptScript)) : Backend AttemptCounts Pending where
  start unit now counts :=
    let counts := counts.add unit.name
    let (delayMs, r) := AttemptScript.pick (scripts.lookup unit.name) (counts.of unit.name) unit
    (counts, Pending.begin now delayMs r)
  look p now counts := (counts, p.look now)
  drop _ counts := counts
  due p := some p.ends

end StageTree
