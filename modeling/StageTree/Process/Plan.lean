import StageTree.Backend.Basic
import StageTree.Process.Call

/-! Plans: calls of programs one after another, each depending on what came of those before. A plan says
at every moment what has to be called to clear up if it is given up there. -/

namespace StageTree

/-- A plan: it is over, with its result, or it calls a program and goes on with what comes of it.
`cleanup` is the call that clears up, if there is something to clear up. -/
inductive Plan where
  | done (cleanup : Option Call) (result : AttemptResult)
  | call (c : Call) (cleanup : Option Call) (next : CallResult → Plan)

/-- A plan that waits for a program that never ends by itself. -/
structure Hanging where
  cleanup : Option Call
  deriving DecidableEq, Repr

def Programs.clear {M : Type} (p : Programs M) (cleanup : Option Call) (m : M) : M :=
  cleanup.elim m fun c => p.callAside c m

namespace Plan

/-- A plan carried out until it is over or hangs. -/
def play {M : Type} (p : Programs M) : Plan → M → M × Progress Hanging AttemptResult
  | done cleanup result, m => (p.clear cleanup m, .returns result)
  | call c cleanup next, m =>
    match p.call c m with
    | (m, some r) => play p (next r) m
    | (m, none) => (m, .waits ⟨cleanup⟩)

/-- A call that has to start its program; the plan goes on with what the program leaves. -/
def run (c : Call) (cleanup : Option Call) (next : Output → Plan) : Plan :=
  .call c cleanup fun
    | .unstarted reason => .done cleanup (.error (.spawn c.program reason))
    | .ended output => next output

end Plan

def Backend.planned {M : Type} (p : Programs M) (planOf : UnitOfWork → Plan) : Backend M Hanging where
  start unit _ m := (planOf unit).play p m
  look x _ m := (m, .waits x)
  drop x m := p.clear x.cleanup m
  due _ := none

end StageTree
