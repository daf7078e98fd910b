import StageTree.Json.Record
import StageTree.Pipeline.Stage

/-! The JSON form of a stage tree. What is absent or empty by default is left out. -/

namespace StageTree

open Json (Misfit Record)

/-- A field that is left out where it has no value. -/
def Json.fieldOf {α : Type} (name : String) (f : α → Json) : Option α → List (String × Json)
  | none => []
  | some a => [(name, f a)]

def Bindings.toJson (m : Bindings) : Json := .object (m.entries.map fun b => (b.1, .string b.2))

def Bindings.ofJson (j : Json) : Except Misfit Bindings := (Json.toFields Json.toText j).map .ofList

namespace Agent

def toJson : Agent → Json
  | none => .object [("type", .string "none")]
  | container image => .object [("type", .string "container"), ("image", .string image)]

def ofJson : Json → Except Misfit Agent :=
  Json.toTagged "type" fun
    | "none" => some (Json.noContent none)
    | "container" =>
      some (Record.ofJson .held (container <$> Record.required "image" Json.toText))
    | _ => Option.none

end Agent

namespace Param

def toJson (p : Param) : Json := .object [("key", .string p.key), ("value", .string p.value)]

def record : Record Param := mk <$> .required "key" Json.toText <*> .required "value" Json.toText

end Param

namespace Step

def toJson : Step → Json
  | single command value =>
    .object [("form", .string "single_arg"), ("command", .string command), ("value", .string value)]
  | multi command params =>
    .object [("form", .string "multi_arg"), ("command", .string command),
      ("params", .array (params.map Param.toJson))]

def ofJson : Json → Except Misfit Step :=
  Json.toTagged "form" fun
    | "single_arg" => some <| Record.ofJson .held <|
      single <$> Record.required "command" Json.toText <*> Record.required "value" Json.toText
    | "multi_arg" => some <| Record.ofJson .held <|
      multi <$> Record.required "command" Json.toText
        <*> Record.required "params" (Json.toList (Param.record.ofJson .held))
    | _ => none

end Step

namespace Command

def toJson : Command → Json
  | shell text => .object [("kind", .string "shell"), ("text", .string text)]
  | invoke name params =>
    .object [("kind", .string "invoke"), ("name", .string name), ("params", params.toJson)]

def ofJson : Json → Except Misfit Command :=
  Json.toTagged "kind" fun
    | "shell" => some (Record.ofJson .held (shell <$> Record.required "text" Json.toText))
    | "invoke" => some <| Record.ofJson .held <|
      invoke <$> Record.required "name" Json.toText <*> Record.required "params" Bindings.ofJson
    | _ => none

end Command

namespace Stage

def stepsField : List Step → List (String × Json)
  | [] => []
  | steps => [("steps", .array (steps.map Step.toJson))]

mutual

def toJson : Stage → Json
  | ⟨name, agent, steps, failFast, parallel⟩ =>
    .object (("name", .string name) :: Json.fieldOf "agent" Agent.toJson agent ++ stepsField steps ++
      Json.fieldOf "fail_fast" .bool failFast ++ groupField parallel)

def groupField : Option (List Stage) → List (String × Json)
  | none => []
  | some branches => [("parallel", .object [("stages", .array (allToJson branches))])]

def allToJson : List Stage → List Json
  | [] => []
  | s :: ss => toJson s :: allToJson ss

end

/-- A stage whose groups nest at most to a depth. -/
def ofJsonWithin (origin : Json.Origin) : Nat → Json → Except Misfit Stage
  | 0, _ => .error .invalidType
  | depth + 1, j =>
    let group := Record.required "stages" (Json.toList (ofJsonWithin origin depth))
    let record := mk <$> Record.required "name" Json.toText
      <*> Record.optional "agent" Agent.ofJson
      <*> Record.defaulted "steps" [] (Json.toList Step.ofJson)
      <*> Record.optional "fail_fast" Json.toBool
      <*> Record.optional "parallel" (group.ofJson origin)
    record.ofJson origin j

def ofJson (origin : Json.Origin) (j : Json) : Except Misfit Stage := ofJsonWithin origin j.depth j

end Stage

namespace Pipeline

def toJson (p : Pipeline) : Json :=
  .object [("agent", p.agent.toJson), ("stages", .array (Stage.allToJson p.stages))]

def ofJson (origin : Json.Origin) : Json → Except Misfit Pipeline :=
  Record.ofJson origin <|
    mk <$> Record.required "agent" Agent.ofJson
      <*> Record.required "stages" (Json.toList (Stage.ofJson origin))

end Pipeline

end StageTree
