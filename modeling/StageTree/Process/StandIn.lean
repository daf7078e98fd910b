import StageTree.Folder
import StageTree.Process.Call

/-! Programs that do what rules say, and a log of their calls. -/

namespace StageTree

/-- How a program ends: with an exit code, by a signal, or never by itself. -/
inductive StandInEnd where
  | exit (code : Int)
  | signal
  | never
  deriving DecidableEq, Repr

/-- What a call does if it has words in the order given, as long as the rule has not been used `times`
times. -/
structure StandInRule where
  words : List String
  stdout : List UInt8 := []
  stderr : List UInt8 := []
  ending : StandInEnd := .exit 0
  times : Option Nat := none
  used : Nat := 0
  deriving Repr

/-- A call in the log: its words, and variables of its environment. -/
structure LoggedCall where
  words : List String
  env : List (String × Option String)
  deriving DecidableEq, Repr

/-- The programs, files of a folder that can be run, the rules, the variables that are logged, and the
calls so far, those nobody waits for apart. -/
structure StandIns where
  folder : Folder
  programs : List Place
  rules : List StandInRule := []
  logged : List String := []
  calls : List LoggedCall := []
  aside : List LoggedCall := []
  deriving Repr

namespace StandInRule

def applies (r : StandInRule) (words : List String) : Bool :=
  r.words.isSublist words && r.times.all (r.used < ·)

/-- What a call comes back with; of an exit code the system keeps the low eight bits. -/
def result? (r : StandInRule) : Option CallResult :=
  let ended (code : Option Int) : Option CallResult := some (.ended ⟨code, r.stdout, r.stderr⟩)
  match r.ending with
  | .exit code => ended (some (code % 256))
  | .signal => ended none
  | .never => none

end StandInRule

namespace StandIns

/-- The rules after a call of some words, and what comes of the call: the first rule that applies
decides, and without one the program does nothing. -/
def decide (words : List String) : List StandInRule → List StandInRule × Option CallResult
  | [] => ([], some (.ended {}))
  | r :: rs =>
    if r.applies words then ({ r with used := r.used + 1 } :: rs, r.result?)
    else
      let (rs, result) := decide words rs
      (r :: rs, result)

/-- The words of a call: the program by its own name, and the arguments. -/
def wordsOf (p : Place) (c : Call) : List String := p.headD "" :: c.args

/-- Whether a text of a call holds the character that ends texts for the system. -/
def hasNul (c : Call) : Bool :=
  let texts := c.program :: c.args ++ c.env.entries.flatMap fun b => [b.1, b.2]
  texts.any fun s => s.toList.contains '\x00'

/-- The system hands no text to a program that has so many bytes. -/
def longestText : Nat := 131072

/-- The texts that a call hands to its program: its arguments, and its variables with their names. -/
def textsOf (c : Call) : List String := c.args ++ c.env.entries.map fun (k, v) => k ++ "=" ++ v

/-- The place of the program that a call starts, or why it cannot. The variable `PATH` of the call says
where programs are looked for. -/
def start (s : StandIns) (c : Call) : Except String Place := do
  if hasNul c then .error "nul byte found in provided data"
  let p ← s.folder.program s.programs.contains (c.env.get? "PATH") c.program
  if (textsOf c).any (longestText ≤ ·.utf8ByteSize) then .error "Argument list too long (os error 7)"
  return p

/-- What a program finds under a name. It is handed every variable as one text, with an equals sign
between name and value, and takes the first text that goes on with an equals sign after the name. -/
def valueIn? (env : Bindings) (name : String) : Option String :=
  if name = "" then none
  else
    let wanted := name.toList ++ ['=']
    let texts := env.entries.map fun (k, v) => k.toList ++ '=' :: v.toList
    (texts.find? wanted.isPrefixOf).map fun t => String.ofList (t.drop wanted.length)

def log (s : StandIns) (p : Place) (c : Call) : LoggedCall :=
  ⟨wordsOf p c, s.logged.map fun name => (name, valueIn? c.env name)⟩

def call (c : Call) (s : StandIns) : StandIns × Option CallResult :=
  match s.start c with
  | .error reason => (s, some (.unstarted reason))
  | .ok p =>
    let (rules, result) := decide (wordsOf p c) s.rules
    ({ s with rules, calls := s.calls ++ [s.log p c] }, result)

def callAside (c : Call) (s : StandIns) : StandIns :=
  match s.start c with
  | .error _ => s
  | .ok p => { s with rules := (decide (wordsOf p c) s.rules).1, aside := s.aside ++ [s.log p c] }

def asPrograms : Programs StandIns := ⟨call, callAside⟩

end StandIns

end StageTree
