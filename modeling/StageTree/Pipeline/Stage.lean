import StageTree.Pipeline.Agent
import StageTree.Pipeline.Step

/-! The stage tree. A stage has own steps, a group of stages that run in parallel, or both; a
pipeline is a list of stages that run in turn. -/

namespace StageTree

/-- A named unit of work. `parallel` holds the branches of its group, if it has one. -/
structure Stage where
  name : String
  agent : Option Agent := none
  steps : List Step := []
  failFast : Option Bool := none
  parallel : Option (List Stage) := none
  deriving Repr, Inhabited

/-- The root of a stage tree. -/
structure Pipeline where
  agent : Agent
  stages : List Stage
  deriving Repr, Inhabited

namespace Stage

/-- The stages of the group, none without a group. -/
def branches (s : Stage) : List Stage := s.parallel.getD []

/-- A property holds of every stage if it passes from the branches of a stage to the stage. -/
theorem induction {P : Stage → Prop} (h : ∀ s : Stage, (∀ b ∈ s.branches, P b) → P s) (s : Stage) :
    P s :=
  Stage.rec (motive_1 := P) (motive_2 := fun o => ∀ b ∈ o.getD [], P b)
    (motive_3 := fun l => ∀ b ∈ l, P b)
    (fun _ _ _ _ _ hp => h _ hp) (by simp) (fun _ hl => hl) (by simp)
    (fun _ _ hs hss => by simpa using ⟨hs, hss⟩) s

/-- The agent the stage executes with; it takes none over from a stage around it. -/
def effectiveAgent (s : Stage) : Agent := s.agent.getD .none

/-- Whether the first failing branch cancels the others: unless the flag says no. -/
def failsFast (s : Stage) : Bool := s.failFast.getD true

def hasSteps (s : Stage) : Bool := !s.steps.isEmpty

mutual

def count : Stage → Nat
  | ⟨_, _, _, _, parallel⟩ => 1 + countGroup parallel

def countGroup : Option (List Stage) → Nat
  | none => 0
  | some branches => countAll branches

def countAll : List Stage → Nat
  | [] => 0
  | s :: ss => count s + countAll ss

end

theorem count_eq (s : Stage) : s.count = 1 + countAll s.branches := by
  obtain ⟨_, _, _, _, parallel⟩ := s
  cases parallel <;> simp [count, countGroup, branches, countAll]

/-- The first stage of the name. -/
def named? (name : String) (stages : List Stage) : Option Stage := stages.find? (·.name == name)

def find? (stages : List Stage) : List String → Option Stage
  | [] => none
  | [name] => named? name stages
  | name :: path => (named? name stages).bind fun s => find? s.branches path

mutual

/-- Every stage of a tree with its path, each stage before its branches. -/
def preorder (above : List String) : Stage → List (List String × Stage)
  | ⟨name, agent, steps, failFast, parallel⟩ =>
    (above ++ [name], ⟨name, agent, steps, failFast, parallel⟩) ::
      preorderGroup (above ++ [name]) parallel

def preorderGroup (above : List String) : Option (List Stage) → List (List String × Stage)
  | none => []
  | some branches => preorderAll above branches

def preorderAll (above : List String) : List Stage → List (List String × Stage)
  | [] => []
  | s :: ss => preorder above s ++ preorderAll above ss

end

mutual

def decEq : (a b : Stage) → Decidable (a = b)
  | ⟨n, a, s, f, p⟩, ⟨n', a', s', f', p'⟩ =>
    match instDecidableEqProd (n, a, s, f) (n', a', s', f'), decEqGroup p p' with
    | isTrue h, isTrue h' => isTrue (by simp_all)
    | isFalse h, _ => isFalse (by simp_all)
    | _, isFalse h => isFalse (by simp_all)

def decEqGroup : (a b : Option (List Stage)) → Decidable (a = b)
  | none, none => isTrue rfl
  | some a, some b =>
    match decEqAll a b with
    | isTrue h => isTrue (by simp_all)
    | isFalse h => isFalse (by simp_all)
  | none, some _ => isFalse (by simp)
  | some _, none => isFalse (by simp)

def decEqAll : (a b : List Stage) → Decidable (a = b)
  | [], [] => isTrue rfl
  | a :: as, b :: bs =>
    match decEq a b, decEqAll as bs with
    | isTrue h, isTrue h' => isTrue (by simp_all)
    | isFalse h, _ => isFalse (by simp_all)
    | _, isFalse h => isFalse (by simp_all)
  | [], _ :: _ => isFalse (by simp)
  | _ :: _, [] => isFalse (by simp)

end

instance : DecidableEq Stage := decEq

end Stage

deriving instance DecidableEq for Pipeline

namespace Pipeline

def stageCount (p : Pipeline) : Nat := Stage.countAll p.stages

def find? (p : Pipeline) (path : List String) : Option Stage := Stage.find? p.stages path

/-- Every stage with its path, in declaration order, each stage before its branches. -/
def preorder (p : Pipeline) : List (List String × Stage) := Stage.preorderAll [] p.stages

end Pipeline

end StageTree
