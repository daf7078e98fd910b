import StageTree.Json.Printer

/-! What the stages of a run produced: a map from stage names to values that keeps the order in which
names came first. The value of a stage is the list of its outputs, or the map of its branches. -/

namespace StageTree

/-- What a stage put into the results around it. -/
inductive StageValue where
  | outputs (lines : List String)
  | nested (entries : List (String × StageValue))
  deriving Repr, Inhabited

/-- A map from stage names to values. -/
structure Results where
  entries : List (String × StageValue) := []
  deriving Repr, Inhabited

namespace StageValue

mutual

def decEq : (a b : StageValue) → Decidable (a = b)
  | outputs l, outputs l' =>
    match instDecidableEqList l l' with
    | isTrue h => isTrue (h ▸ rfl)
    | isFalse h => isFalse (fun e => h (outputs.inj e))
  | nested es, nested es' =>
    match decEqEntries es es' with
    | isTrue h => isTrue (h ▸ rfl)
    | isFalse h => isFalse (fun e => h (nested.inj e))
  | outputs _, nested _ => isFalse (by simp)
  | nested _, outputs _ => isFalse (by simp)

def decEqEntries : (a b : List (String × StageValue)) → Decidable (a = b)
  | [], [] => isTrue rfl
  | (k, v) :: es, (k', v') :: es' =>
    match String.decEq k k', decEq v v', decEqEntries es es' with
    | isTrue h, isTrue h', isTrue h'' => isTrue (by simp_all)
    | isFalse h, _, _ => isFalse (by simp_all)
    | _, isFalse h, _ => isFalse (by simp_all)
    | _, _, isFalse h => isFalse (by simp_all)
  | [], _ :: _ => isFalse (by simp)
  | _ :: _, [] => isFalse (by simp)

end

instance : DecidableEq StageValue := decEq

mutual

/-- The value as it is written, an object keeping the order of its entries. -/
def form : StageValue → Json
  | outputs lines => .strings lines
  | nested entries => .object (entriesForm entries)

def entriesForm : List (String × StageValue) → List (String × Json)
  | [] => []
  | (name, v) :: es => (name, form v) :: entriesForm es

end

mutual

/-- The value as JSON that is held, the entries of an object being collected in a map. -/
def toJson : StageValue → Json
  | outputs lines => .strings lines
  | nested entries => .object (Json.collect (entriesToJson entries))

def entriesToJson : List (String × StageValue) → List (String × Json)
  | [] => []
  | (name, v) :: es => (name, toJson v) :: entriesToJson es

end

/-- The results in a value that holds some. -/
def nested? : StageValue → Option Results
  | outputs _ => none
  | nested entries => some ⟨entries⟩

end StageValue

deriving instance DecidableEq for Results

namespace Results

def empty : Results := ⟨[]⟩

/-- Entries with a value stored: in the place of the name, or at the end. -/
def insertEntry (name : String) (v : StageValue) : List (String × StageValue) → List (String × StageValue)
  | [] => [(name, v)]
  | (k, w) :: es => if k = name then (k, v) :: es else (k, w) :: insertEntry name v es

/-- The results with a value stored, replacing one of the same name in place. -/
def insert (r : Results) (name : String) (v : StageValue) : Results := ⟨insertEntry name v r.entries⟩

def insertAll (r : Results) (es : List (String × StageValue)) : Results :=
  es.foldl (fun r e => r.insert e.1 e.2) r

def get? (r : Results) (name : String) : Option StageValue := r.entries.lookup name

def getPath? (r : Results) : List String → Option StageValue
  | [] => none
  | [name] => r.get? name
  | name :: path => ((r.get? name).bind StageValue.nested?).bind fun r => r.getPath? path

def names (r : Results) : List String := r.entries.map (·.1)

def form (r : Results) : Json := .object (StageValue.entriesForm r.entries)

def toJson (r : Results) : Json := .object (Json.collect (StageValue.entriesToJson r.entries))

def text (r : Results) : String := r.form.compact

/-- What a stage contributes under its name: the map of its group, its outputs, or with both the map
with the outputs after the branches under the stage's own name. -/
def contribution (stage : String) : Option Results → Option (List String) → Option StageValue
  | none, none => none
  | some group, none => some (.nested group.entries)
  | none, some lines => some (.outputs lines)
  | some group, some lines => some (.nested (group.insert stage (.outputs lines)).entries)

def mergeStage (r : Results) (stage : String) (group : Option Results) (lines : Option (List String)) :
    Results :=
  match contribution stage group lines with
  | none => r
  | some v => r.insert stage v

/-- One map of the maps of several branches, in their order. -/
def mergeBranches (branches : List Results) : Results :=
  branches.foldl (fun r b => r.insertAll b.entries) empty

end Results

end StageTree
