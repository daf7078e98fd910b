import StageTree.Text.Quoted

/-! Cancellation scopes. A scope is derived from another one or from none; it lives as long as a handle
or a waiting task holds it. Cancelling a scope gives it a reason, wakes the tasks that wait for it, and
does the same to every live scope that it is linked to. The first reason stands, and no scope becomes
live again.

A scope is linked to those derived from it, and holds no claim on them: one that nobody holds any more
is passed over, and so is all that was derived from it. -/

namespace StageTree

/-- A scope: whether it is cancelled and why, and the scopes it hands a cancellation on to. -/
structure Scope where
  cancelled : Bool := false
  reason : Option String := none
  children : List Nat := []
  deriving DecidableEq, Repr, Inhabited

structure Wait where
  scope : Nat
  woken : Bool
  deriving DecidableEq, Repr

/-- All scopes in the order in which they came, all handles, those given up being empty, and all
waiting tasks. -/
structure Forest where
  scopes : List Scope := []
  handles : List (Option Nat) := []
  waits : List Wait := []
  deriving DecidableEq, Repr

/-- What can be done with scopes, handles being named by their number. -/
inductive ScopeOp where
  | new
  | child (handle : Nat)
  | clone (handle : Nat)
  | cancel (handle : Nat) (reason : String)
  | drop (handle : Nat)
  | wait (handle : Nat)
  deriving DecidableEq, Repr

namespace Forest

def empty : Forest := {}

/-- The scope of a handle that is not given up. -/
def scopeOf? (f : Forest) (handle : Nat) : Option Nat := (f.handles[handle]?).join

def isCancelled (f : Forest) (scope : Nat) : Bool := (f.scopes[scope]?).any Scope.cancelled

/-- Why a scope is cancelled. -/
def reason? (f : Forest) (scope : Nat) : Option String := (f.scopes[scope]?).bind Scope.reason

/-- The scopes that a scope hands a cancellation on to. -/
def children (f : Forest) (scope : Nat) : List Nat := (f.scopes[scope]?).elim [] Scope.children

/-- A scope that a handle or a waiting task holds. -/
def isLive (f : Forest) (scope : Nat) : Bool :=
  f.handles.contains (some scope) || f.waits.any fun w => w.scope == scope && !w.woken

/-- A scope that has no reason to be cancelled yet. -/
def isOpen (f : Forest) (scope : Nat) : Bool := (f.scopes[scope]?).any fun s => s.reason.isNone

/-- The scopes after one of them is cancelled by itself: it lets go of the scopes it was linked to. -/
def strike (f : Forest) (reason : String) (scope : Nat) : Forest :=
  { f with
    scopes := f.scopes.set scope ⟨true, some reason, []⟩
    waits := f.waits.map fun w => if w.scope = scope then { w with woken := true } else w }

/-- The number of scopes without a reason. -/
def openCount (f : Forest) : Nat := f.scopes.countP fun s => s.reason.isNone

theorem openCount_strike {f : Forest} {scope : Nat} (reason : String) (h : f.isOpen scope = true) :
    (f.strike reason scope).openCount < f.openCount := by
  obtain ⟨s, hs, hr⟩ := (Option.any_eq_true _ _).1 h
  obtain ⟨hlt, rfl⟩ := List.getElem?_eq_some_iff.1 hs
  have hpos : 0 < f.openCount := List.countP_pos_iff.2 ⟨_, List.getElem_mem hlt, hr⟩
  have hset : (f.strike reason scope).openCount = f.openCount - 1 := by
    simp [openCount, strike, List.countP_set hlt, hr]
  omega

/-- The scopes after those of a list are cancelled in turn, each of them with the live ones that it is
linked to before the next. One that has a reason already keeps it, and nothing below it changes. -/
def cancelAll (reason : String) (f : Forest) : List Nat → Forest
  | [] => f
  | s :: rest =>
    if f.isOpen s then cancelAll reason (f.strike reason s) ((f.children s).filter f.isLive ++ rest)
    else cancelAll reason f rest
termination_by todo => (f.openCount, todo.length)
decreasing_by
  · exact Prod.Lex.left _ _ (openCount_strike reason ‹_›)
  · exact Prod.Lex.right _ (Nat.lt_succ_self _)

def cancelScope (f : Forest) (scope : Nat) (reason : String) : Forest := f.cancelAll reason [scope]

def addScope (f : Forest) : Forest :=
  { f with scopes := f.scopes ++ [{}], handles := f.handles ++ [some f.scopes.length] }

/-- A scope linked to one more; of the others, those that nobody holds any more are let go. -/
def link (f : Forest) (scope child : Nat) : Forest :=
  { f with scopes := f.scopes.modify scope fun s =>
      { s with children := s.children.filter f.isLive ++ [child] } }

/-- A new scope derived from one, with a handle to it. If that one is cancelled, so is the new one from
the start, for the same reason. -/
def derive (f : Forest) (scope : Nat) : Forest :=
  if f.isCancelled scope then f.addScope.cancelScope f.scopes.length ((f.reason? scope).getD "")
  else f.addScope.link scope f.scopes.length

/-- The scopes after an operation; none if its handle is given up or was never there. -/
def step (f : Forest) : ScopeOp → Option Forest
  | .new => some f.addScope
  | .child h => (f.scopeOf? h).map f.derive
  | .clone h => (f.scopeOf? h).map fun s => { f with handles := f.handles ++ [some s] }
  | .cancel h r => (f.scopeOf? h).map fun s => f.cancelScope s r
  | .drop h => (f.scopeOf? h).map fun _ => { f with handles := f.handles.set h none }
  | .wait h => (f.scopeOf? h).map fun s => { f with waits := f.waits ++ [⟨s, f.isCancelled s⟩] }

def run (f : Forest) (ops : List ScopeOp) : Option Forest := ops.foldlM step f

/-- What a holder of each handle sees: nothing through one given up, else why its scope is cancelled,
if it is. -/
def view (f : Forest) : List (Option (Option String)) :=
  f.handles.map fun h => h.map f.reason?

end Forest

def Scope.inspect (reason : Option String) : String :=
  "CancellationToken \x7b cancelled: " ++ toString reason.isSome ++ ", reason: " ++
    (match reason with
      | none => "None"
      | some r => "Some(" ++ Text.shownText r ++ ")") ++ " \x7d"

end StageTree
