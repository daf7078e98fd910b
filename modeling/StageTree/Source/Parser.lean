import StageTree.Pipeline.Stage
import StageTree.Source.Lexer

/-! From tokens to the stage tree:

    pipeline  := "pipeline" "{" agent stages "}"
    agent     := "agent" ( "none" | "{" "docker" TEXT "}" )
    stages    := "stages" "{" stage+ "}"
    stage     := "stage" "(" TEXT ")" "{" [agent] [steps] [failfast] [parallel] "}"
    steps     := "steps" "{" step+ "}"
    step      := WORD TEXT | WORD param ("," param)*
    param     := WORD ":" TEXT
    failfast  := "failFast" ( "true" | "false" )
    parallel  := "parallel" "{" stage+ "}"

Reading a part gives the part and the tokens after it. A keyword is a word that stands where the grammar
wants it; anywhere else the same word is a command or a parameter name. -/

namespace StageTree.Source

section

variable (stop : Position)

/-- The error of tokens that do not go on as wanted. -/
def refuse {α : Type} (expected : Expected) : List Token → Except Error α
  | [] => .error ⟨.unexpectedEnd expected, stop⟩
  | t :: _ => .error ⟨.unexpected expected t.lexeme, t.position⟩

/-- The tokens after a lexeme that has to stand here. -/
def need (lexeme : Lexeme) (expected : Expected) : List Token → Except Error (List Token)
  | t :: ts => if t.lexeme = lexeme then .ok ts else refuse stop expected (t :: ts)
  | [] => refuse stop expected []

def needMark (lexeme : Lexeme) (ts : List Token) : Except Error (List Token) :=
  need stop lexeme (.mark lexeme) ts

def needKeyword (word : String) (ts : List Token) : Except Error (List Token) :=
  need stop (.word word) (.keyword word) ts

def needText (expected : Expected) : List Token → Except Error (String × List Token)
  | ⟨.text value, _⟩ :: ts => .ok (value, ts)
  | ts => refuse stop expected ts

def needWord (expected : Expected) : List Token → Except Error (String × List Token)
  | ⟨.word name, _⟩ :: ts => .ok (name, ts)
  | ts => refuse stop expected ts

def atKeyword (word : String) : List Token → Bool
  | t :: _ => t.lexeme = .word word
  | [] => false

/-- The agent after its keyword. -/
def parseAgentKind : List Token → Except Error (Agent × List Token)
  | ⟨.word name, p⟩ :: ts =>
    if name = "none" then .ok (.none, ts) else refuse stop .agent (⟨.word name, p⟩ :: ts)
  | ⟨.openBrace, _⟩ :: ts => do
    let ts ← needKeyword stop "docker" ts
    let (image, ts) ← needText stop .image ts
    let ts ← needMark stop .closeBrace ts
    return (.container image, ts)
  | ts => refuse stop .agent ts

def parseAgent (ts : List Token) : Except Error (Agent × List Token) := do
  parseAgentKind stop (← needKeyword stop "agent" ts)

def parseParam (ts : List Token) : Except Error (Param × List Token) := do
  let (key, ts) ← needWord stop .paramName ts
  let ts ← needMark stop .colon ts
  let (value, ts) ← needText stop .paramValue ts
  return (⟨key, value⟩, ts)

/-- The parameters after the first one. -/
def parseMoreParams : Nat → List Token → Except Error (List Param × List Token)
  | fuel + 1, ⟨.comma, _⟩ :: ts => do
    let (p, ts) ← parseParam stop ts
    let (ps, ts) ← parseMoreParams fuel ts
    return (p :: ps, ts)
  | _, ts => .ok ([], ts)

/-- A step. Only a word with a colon after it starts a parameter. -/
def parseStep (ts : List Token) : Except Error (Step × List Token) := do
  let (command, ts) ← needWord stop .stepCommand ts
  match ts with
  | ⟨.text value, _⟩ :: ts => return (.single command value, ts)
  | ⟨.word _, _⟩ :: ⟨.colon, _⟩ :: _ =>
    let (p, ts) ← parseParam stop ts
    let (ps, ts) ← parseMoreParams stop ts.length ts
    return (.multi command (p :: ps), ts)
  | ts => refuse stop .stepArgument ts

def parseMoreSteps : Nat → List Token → Except Error (List Step × List Token)
  | fuel + 1, ⟨.word name, p⟩ :: ts => do
    let (s, ts) ← parseStep stop (⟨.word name, p⟩ :: ts)
    let (ss, ts) ← parseMoreSteps fuel ts
    return (s :: ss, ts)
  | _, ts => .ok ([], ts)

def parseSteps (ts : List Token) : Except Error (List Step × List Token) := do
  let (s, ts) ← parseStep stop ts
  let (ss, ts) ← parseMoreSteps stop ts.length ts
  return (s :: ss, ts)

def parseBoolean : List Token → Except Error (Bool × List Token)
  | ⟨.word name, p⟩ :: ts =>
    if name = "true" then .ok (true, ts)
    else if name = "false" then .ok (false, ts)
    else refuse stop .boolean (⟨.word name, p⟩ :: ts)
  | ts => refuse stop .boolean ts

/-- A clause that stands here if its keyword does. -/
def optional {α : Type} (word : String) (clause : List Token → Except Error (α × List Token))
    (ts : List Token) : Except Error (Option α × List Token) :=
  if atKeyword word ts then do
    let (a, ts) ← clause ts.tail
    return (some a, ts)
  else .ok (none, ts)

def braced {α : Type} (content : List Token → Except Error (α × List Token)) (ts : List Token) :
    Except Error (α × List Token) := do
  let ts ← needMark stop .openBrace ts
  let (a, ts) ← content ts
  let ts ← needMark stop .closeBrace ts
  return (a, ts)

/-- The end of a stage, which any clause that it may still have might stand before. -/
def needStageEnd (ts : List Token) : Except Error (List Token) :=
  need stop .closeBrace .stageClause ts

mutual

/-- A stage. Stages nest at most as deep as there are tokens. -/
def parseStage : Nat → List Token → Except Error (Stage × List Token)
  | 0, ts => refuse stop (.keyword "stage") ts
  | fuel + 1, ts => do
    let ts ← needKeyword stop "stage" ts
    let ts ← needMark stop .openParen ts
    let (name, ts) ← needText stop .stageName ts
    let ts ← needMark stop .closeParen ts
    let ts ← needMark stop .openBrace ts
    let (agent, ts) ← optional "agent" (parseAgentKind stop) ts
    let (steps, ts) ← optional "steps" (braced stop (parseSteps stop)) ts
    let (failFast, ts) ← optional "failFast" (parseBoolean stop) ts
    let (parallel, ts) ← optional "parallel" (braced stop (parseStages fuel)) ts
    let ts ← needStageEnd stop ts
    return ({ name, agent, steps := steps.getD [], failFast, parallel }, ts)

/-- One stage or more, as long as their keyword stands next. -/
def parseStages : Nat → List Token → Except Error (List Stage × List Token)
  | 0, ts => refuse stop (.keyword "stage") ts
  | fuel + 1, ts => do
    let (s, ts) ← parseStage fuel ts
    if atKeyword "stage" ts then
      let (ss, ts) ← parseStages fuel ts
      return (s :: ss, ts)
    else return ([s], ts)

end

def parseStageBlock (ts : List Token) : Except Error (List Stage × List Token) := do
  braced stop (parseStages stop (2 * ts.length)) (← needKeyword stop "stages" ts)

def parsePipelineBody (ts : List Token) : Except Error (Pipeline × List Token) := do
  let (agent, ts) ← parseAgent stop ts
  let (stages, ts) ← parseStageBlock stop ts
  return (⟨agent, stages⟩, ts)

/-- A pipeline that the tokens spell from the first to the last. -/
def parseAll (ts : List Token) : Except Error Pipeline := do
  let (p, ts) ← braced stop (parsePipelineBody stop) (← needKeyword stop "pipeline" ts)
  match ts with
  | [] => return p
  | ts => refuse stop .ending ts

end

def Tokens.parse (ts : Tokens) : Except Error Pipeline := parseAll ts.stop ts.list

def parse (source : String) : Except Error Pipeline := do
  (← tokenize source).parse

end StageTree.Source
