import StageTree.Text.Terminal

/-! The arguments of the command line. There are three commands: `run` and its options, `check` and
`parse`, each with one file. The arguments are read from left to right, and the first one that cannot
be understood decides. The value of an option is checked once the next argument that matters has
been seen. -/

namespace StageTree.CommandLine

inductive Request where
  | run (file : String) (config : Option String) (vars : List (String × String))
      (output : Option String)
  | check (file : String)
  | parse (file : String)
  deriving DecidableEq, Repr

/-- Why arguments are not understood, or what they ask for in place of a command. -/
inductive Refusal where
  | help
  | noCommand
  | unknownCommand
  | unknownArgument
  | missingFile
  | missingValue
  | surplusValue
  | repeatedOption
  | badVariable (value reason : String)
  deriving DecidableEq, Repr

def styled (style text : String) : String := "\x1b[" ++ style ++ "m" ++ text ++ "\x1b[0m"

/-- The text about a refusal, where it depends on what was given. It is written with styles, and shown
without what steers a terminal, be it in a style or in the value. -/
def Refusal.message : Refusal → String
  | badVariable value reason =>
    Text.withoutSequences <|
      styled "1;31" "error:" ++ " invalid value '" ++ styled "33" value ++ "' for '" ++
      styled "1" "--var <VARS>" ++ "': " ++ reason ++ "\n\nFor more information, try '" ++
      styled "1" "--help" ++ "'.\n"
  | _ => ""

/-- The first line of the text about a refusal. A line may end with a carriage return before its break. -/
def Refusal.line (r : Refusal) : String :=
  let cs := r.message.toList
  let line := cs.takeWhile (· ≠ '\n')
  let broken := line.length < cs.length
  String.ofList (if broken ∧ line.getLast? = some '\r' then line.dropLast else line)

/-- The options of `run`. -/
inductive Flag where
  | config
  | var
  | output
  deriving DecidableEq, Repr

/-- What a value is given for. -/
inductive Slot where
  | file
  | flag (o : Flag)
  deriving DecidableEq, Repr

/-- The values so far, and the one that is not checked yet, or still to come. -/
structure Given where
  file : Option String := none
  config : Option String := none
  vars : List (String × String) := []
  output : Option String := none
  pending : Option (Slot × Option String) := none
  deriving DecidableEq, Repr

/-- The parts of a text before and after its first equals sign. -/
def splitEquals (cs : List Char) : Option (String × String) :=
  match cs.dropWhile (· ≠ '=') with
  | [] => none
  | _ :: value => some (String.ofList (cs.takeWhile (· ≠ '=')), String.ofList value)

def readVariable (given : String) : Except String (String × String) :=
  match splitEquals given.toList with
  | none => .error ("expected KEY=VALUE, got '" ++ given ++ "'")
  | some (key, value) => if key = "" then .error "variable name must not be empty" else .ok (key, value)

namespace Given

def path (before : Option String) (value : String) : Except Refusal (Option String) :=
  if before.isSome then .error .repeatedOption
  else if value = "" then .error .missingValue
  else .ok (some value)

def put (g : Given) (slot : Slot) (value : String) : Except Refusal Given :=
  match slot with
  | .file => (path g.file value).map fun file => { g with file }
  | .flag .config => (path g.config value).map fun config => { g with config }
  | .flag .output => (path g.output value).map fun output => { g with output }
  | .flag .var =>
    match readVariable value with
    | .ok v => .ok { g with vars := g.vars ++ [v] }
    | .error reason => .error (.badVariable value reason)

/-- The values with the pending one checked. -/
def settle (g : Given) : Except Refusal Given :=
  match g.pending with
  | none => .ok g
  | some (_, none) => .error .missingValue
  | some (slot, some value) => { g with pending := none }.put slot value

/-- Whether the file is given, be it checked or not. -/
def hasFile (g : Given) : Bool :=
  g.file.isSome || g.pending.any fun p => p.1 == .file

/-- The values after an argument that stands for itself. -/
def positional (g : Given) (arg : String) : Except Refusal Given :=
  if g.hasFile then .error .unknownArgument
  else g.settle.map fun g => { g with pending := some (.file, some arg) }

/-- The values after an option, which has its value with it or will be given it by the next argument. -/
def flag (g : Given) (o : Flag) (value : Option String) : Except Refusal Given :=
  match g.settle with
  | .error e => .error e
  | .ok g =>
    match value with
    | some value => g.put (.flag o) value
    | none => .ok { g with pending := some (.flag o, none) }

/-- The refusal of a plea for help, unless a value before it is bad. -/
def help (g : Given) : Except Refusal Given :=
  match g.settle with
  | .error e => .error e
  | .ok _ => .error .help

end Given

/-- How an argument reads by its first characters. -/
inductive Shape where
  | plain
  | stop
  | long (name : String) (value : Option String)
  | short (letter : Char) (rest : List Char)
  deriving DecidableEq, Repr

/-- The shape of an argument: two hyphens alone, two before a name, one before a letter, or none. -/
def Shape.of (arg : List Char) : Shape :=
  match arg with
  | ['-', '-'] => .stop
  | '-' :: '-' :: rest =>
    match splitEquals rest with
    | some (name, value) => .long name (some value)
    | none => .long (String.ofList rest) none
  | '-' :: letter :: rest => .short letter rest
  | _ => .plain

def Flag.ofName? : String → Option Flag
  | "config" => some config
  | "var" => some .var
  | "output" => some output
  | _ => none

def Flag.ofLetter? : Char → Option Flag
  | 'c' => some config
  | 'o' => some output
  | _ => none

/-- A value that follows the letter of its option, after an equals sign or at once. -/
def attached : List Char → Option String
  | [] => none
  | '=' :: value => some (String.ofList value)
  | value => some (String.ofList value)

def Given.take (withOptions : Bool) (g : Given) (arg : String) : Except Refusal Given :=
  match Shape.of arg.toList with
  | .long "help" none => g.help
  | .long "help" (some _) => .error .surplusValue
  | .short 'h' _ => g.help
  | .long name value =>
    match Flag.ofName? name, withOptions with
    | some o, true => g.flag o value
    | _, _ => .error .unknownArgument
  | .short letter rest =>
    match Flag.ofLetter? letter, withOptions with
    | some o, true => g.flag o (attached rest)
    | _, _ => .error .unknownArgument
  | _ =>
    match g.pending with
    | some (.flag o, none) => .ok { g with pending := some (.flag o, some arg) }
    | _ => g.positional arg

/-- The values after all arguments. After two hyphens alone every argument stands for itself. -/
def Given.takeAll (withOptions : Bool) (g : Given) : List String → Except Refusal Given
  | [] => g.settle
  | arg :: args =>
    if arg = "--" then (args.foldlM Given.positional g).bind Given.settle
    else
      match g.take withOptions arg with
      | .error e => .error e
      | .ok g => takeAll withOptions g args

def operands (withOptions : Bool) (args : List String) : Except Refusal (String × Given) :=
  match ({} : Given).takeAll withOptions args with
  | .error e => .error e
  | .ok g => g.file.elim (.error .missingFile) fun file => .ok (file, g)

def commandNames : List String := ["run", "check", "parse", "help"]

/-- What a plea for help about a command comes to. -/
def helpAbout : List String → Refusal
  | [] => .help
  | [name] => if commandNames.contains name then .help else .unknownCommand
  | _ => .unknownCommand

/-- What the first argument comes to where it is no command. -/
def noCommand (arg : String) (args : List String) : Refusal :=
  match Shape.of arg.toList, args with
  | .long "help" none, _ => .help
  | .long "help" (some _), _ => .surplusValue
  | .short 'h' _, _ => .help
  | .long _ _, _ => .unknownArgument
  | .short _ _, _ => .unknownArgument
  | .stop, [] => .noCommand
  | .stop, name :: _ => if commandNames.contains name then .unknownArgument else .unknownCommand
  | .plain, _ => .unknownCommand

def Request.ofArgs : List String → Except Refusal Request
  | [] => .error .noCommand
  | "run" :: args => (operands true args).map fun (file, g) => .run file g.config g.vars g.output
  | "check" :: args => (operands false args).map fun (file, _) => .check file
  | "parse" :: args => (operands false args).map fun (file, _) => .parse file
  | "help" :: args => .error (helpAbout args)
  | arg :: args => .error (noCommand arg args)

end StageTree.CommandLine
