import StageTree.Source.Parser

/-! The grammar of pipeline source, as derivations of lexemes:

    pipeline  := "pipeline" "{" agent stages "}"
    agent     := "agent" ( "none" | "{" "docker" TEXT "}" )
    stages    := "stages" "{" stage+ "}"
    stage     := "stage" "(" TEXT ")" "{" [agent] [steps] [failfast] [parallel] "}"
    steps     := "steps" "{" step+ "}"
    step      := WORD TEXT | WORD param ("," param)*
    param     := WORD ":" TEXT
    failfast  := "failFast" ( "true" | "false" )
    parallel  := "parallel" "{" stage+ "}"

A derivation is of the lexemes that it reads, with the tree that they spell. Nothing here looks ahead: any
word may be a command or the name of a parameter, a keyword too, and no clause says where it ends. -/

namespace StageTree.Source

variable {α : Type}

inductive Star (D : List Lexeme → α → Prop) : List Lexeme → List α → Prop
  | nil : Star D [] []
  | cons {ls ms : List Lexeme} {a : α} {as : List α} (head : D ls a) (tail : Star D ms as) :
      Star D (ls ++ ms) (a :: as)

inductive Plus (D : List Lexeme → α → Prop) : List Lexeme → List α → Prop
  | mk {ls ms : List Lexeme} {a : α} {as : List α} (head : D ls a) (tail : Star D ms as) :
      Plus D (ls ++ ms) (a :: as)

inductive Optional (D : List Lexeme → α → Prop) : List Lexeme → Option α → Prop
  | absent : Optional D [] none
  | present {ls : List Lexeme} {a : α} (h : D ls a) : Optional D ls (some a)

inductive After (l : Lexeme) (D : List Lexeme → α → Prop) : List Lexeme → α → Prop
  | mk {ls : List Lexeme} {a : α} (h : D ls a) : After l D (l :: ls) a

inductive Braces (D : List Lexeme → α → Prop) : List Lexeme → α → Prop
  | mk {ls : List Lexeme} {a : α} (h : D ls a) : Braces D (.openBrace :: (ls ++ [.closeBrace])) a

inductive DerivesAgentKind : List Lexeme → Agent → Prop
  | none : DerivesAgentKind [.word "none"] .none
  | container (image : String) :
      DerivesAgentKind [.openBrace, .word "docker", .text image, .closeBrace] (.container image)

/-- `"agent" ( "none" | "{" "docker" TEXT "}" )` -/
abbrev DerivesAgent : List Lexeme → Agent → Prop := After (.word "agent") DerivesAgentKind

/-- `WORD ":" TEXT` -/
inductive DerivesParam : List Lexeme → Param → Prop
  | mk (key value : String) : DerivesParam [.word key, .colon, .text value] ⟨key, value⟩

/-- `WORD TEXT | WORD param ("," param)*` -/
inductive DerivesStep : List Lexeme → Step → Prop
  | single (command value : String) : DerivesStep [.word command, .text value] (.single command value)
  | multi {ls ms : List Lexeme} {p : Param} {ps : List Param} (command : String) (head : DerivesParam ls p)
      (tail : Star (After .comma DerivesParam) ms ps) :
      DerivesStep (.word command :: (ls ++ ms)) (.multi command (p :: ps))

/-- `"steps" "{" step+ "}"` -/
abbrev DerivesSteps : List Lexeme → List Step → Prop := After (.word "steps") (Braces (Plus DerivesStep))

inductive DerivesBoolean : List Lexeme → Bool → Prop
  | true : DerivesBoolean [.word "true"] true
  | false : DerivesBoolean [.word "false"] false

/-- `"failFast" ( "true" | "false" )` -/
abbrev DerivesFailFast : List Lexeme → Bool → Prop := After (.word "failFast") DerivesBoolean

/-- `"stage" "(" TEXT ")" "{" [agent] [steps] [failfast] [parallel] "}"`, where
`parallel := "parallel" "{" stage+ "}"` -/
inductive DerivesStage : List Lexeme → Stage → Prop
  | mk {as ss fs ps : List Lexeme} (name : String) {agent : Option Agent} {steps : Option (List Step)}
      {failFast : Option Bool} {parallel : Option (List Stage)} (hagent : Optional DerivesAgent as agent)
      (hsteps : Optional DerivesSteps ss steps) (hfailFast : Optional DerivesFailFast fs failFast)
      (hparallel : Optional (After (.word "parallel") (Braces (Plus DerivesStage))) ps parallel) :
      DerivesStage
        (.word "stage" :: .openParen :: .text name :: .closeParen :: .openBrace ::
          (as ++ (ss ++ (fs ++ (ps ++ [.closeBrace])))))
        { name, agent, steps := steps.getD [], failFast, parallel }

/-- `"stages" "{" stage+ "}"` -/
abbrev DerivesStages : List Lexeme → List Stage → Prop := After (.word "stages") (Braces (Plus DerivesStage))

/-- `agent stages` -/
inductive DerivesBody : List Lexeme → Pipeline → Prop
  | mk {ls ms : List Lexeme} {agent : Agent} {stages : List Stage} (hagent : DerivesAgent ls agent)
      (hstages : DerivesStages ms stages) : DerivesBody (ls ++ ms) ⟨agent, stages⟩

/-- `"pipeline" "{" agent stages "}"` -/
abbrev DerivesPipeline : List Lexeme → Pipeline → Prop := After (.word "pipeline") (Braces DerivesBody)

end StageTree.Source
