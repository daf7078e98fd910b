import StageTree.Unit.Runner

/-! Execution backends. A backend makes one attempt at a unit of work. An attempt may be given up
before it is over, and then the backend clears up after it. -/

namespace StageTree

abbrev AttemptResult := Except BackendError (List String)

/-- A backend in a world: attempts that start, are looked at, and may be dropped. -/
structure Backend (B X : Type) where
  start : UnitOfWork → Nat → B → B × Progress X AttemptResult
  look : X → Nat → B → B × Progress X AttemptResult
  drop : X → B → B
  due : X → Option Nat

end StageTree
