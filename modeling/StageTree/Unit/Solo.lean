import StageTree.Unit.Runner

/-! One unit of work played by itself in virtual time. Time stands still while something can happen and
then jumps to the next instant at which something can: a cancellation that is to come, or the instant
at which the unit is due. At an instant that is both, the unit goes on before it is cancelled. -/

namespace StageTree

/-- A unit in play: what the runner waits for, nothing before it is started, or what it returned. -/
structure Solo (W U : Type) where
  now : Nat := 0
  cancelled : Option String := none
  cancels : List (Nat × String) := []
  world : W
  progress : Option (Progress U UnitResult) := none
  looks : Nat := 0
  notes : List (Nat × Note) := []

namespace Solo

variable {W U : Type}

def result? (s : Solo W U) : Option UnitResult :=
  match s.progress with
  | some (.returns r) => some r
  | _ => none

def take (s : Solo W U) (t : Turn W U) : Solo W U :=
  { s with world := t.world, progress := some t.progress, looks := s.looks + 1,
           notes := s.notes ++ t.notes.map fun n => (s.now, n) }

def cancelNow? (s : Solo W U) : Option (Solo W U) :=
  match s.cancels with
  | (ms, reason) :: rest =>
    if ms ≤ s.now then some { s with cancelled := s.cancelled <|> some reason, cancels := rest } else none
  | [] => none

def startNow? (r : Runner W U) (unit : UnitOfWork) (draw : Nat) (s : Solo W U) : Option (Solo W U) :=
  match s.progress with
  | none => some (s.take (r.start unit ⟨s.now, s.cancelled, draw⟩ s.world))
  | some _ => none

/-- A look at the unit, which waits, if something allows it. -/
def lookIf? (allowed : U → Bool) (r : Runner W U) (draw : Nat) (s : Solo W U) : Option (Solo W U) :=
  match s.progress with
  | some (.waits u) =>
    if allowed u then some (s.take (r.look u ⟨s.now, s.cancelled, draw⟩ s.world)) else none
  | _ => none

/-- The next instant at which something can happen. -/
def nextInstant? (r : Runner W U) (s : Solo W U) : Option Nat :=
  match s.progress with
  | some (.waits u) => ((r.due u).toList ++ s.cancels.map Prod.fst).min?
  | _ => none

/-- What happens next, `draws` being what chance gives at each look; nothing once the unit has
returned, or when it waits for what never comes. -/
def turn? (r : Runner W U) (unit : UnitOfWork) (draws : Nat → Nat) (s : Solo W U) :
    Option (Solo W U) :=
  if s.result?.isSome then none
  else s.lookIf? (fun u => (r.due u).any (· ≤ s.now)) r (draws s.looks) <|> s.cancelNow? <|>
    s.startNow? r unit (draws s.looks) <|> s.lookIf? (fun _ => s.cancelled.isSome) r (draws s.looks) <|>
    (s.nextInstant? r).map fun ms => { s with now := ms }

/-- The unit played until nothing happens any more. -/
def play (r : Runner W U) (unit : UnitOfWork) (draws : Nat → Nat) : Nat → Solo W U → Solo W U
  | 0, s => s
  | fuel + 1, s =>
    match s.turn? r unit draws with
    | some s => play r unit draws fuel s
    | none => s

/-- One unit from its start to its end, in a world, with cancellations in the order in which they come. -/
def under (r : Runner W U) (unit : UnitOfWork) (draws : Nat → Nat) (cancels : List (Nat × String))
    (world : W) : Solo W U :=
  play r unit draws (2 * (r.looks + cancels.length + 1)) { cancels, world }

/-- One unit from its start to its end, in a world, with cancellations that are waited for from the
start. -/
def run (r : Runner W U) (unit : UnitOfWork) (draws : Nat → Nat) (cancels : List (Nat × String))
    (world : W) : Solo W U :=
  under r unit draws (cancelsInOrder cancels) world

end Solo

end StageTree
