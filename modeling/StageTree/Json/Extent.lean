import StageTree.Json.Lexeme

/-! How far a JSON value extends. Arrays and objects may nest to any depth here, for what is open is
kept in a list. -/

namespace StageTree.Json

/-- What is open at a place of a text. -/
inductive Bracket where
  | array | object

/-- What is due at a place of a text: a value, the first item of an array or its end, a field, the first
field of an object or its end, or what comes after a value. -/
inductive Due where
  | value | item | field | firstField | ended

/-- The rest after the value that the text is in, what is open first. -/
def afterOpen? : Nat → List Bracket → Due → List Char → Option (List Char)
  | 0, _, _, _ => none
  | fuel + 1, brackets, due, cs =>
    match due, brackets, skipGap cs with
    | .ended, [], _ => some cs
    | .ended, .array :: _, ',' :: rest => afterOpen? fuel brackets .value rest
    | .ended, .object :: _, ',' :: rest => afterOpen? fuel brackets .field rest
    | .ended, .array :: outer, ']' :: rest => afterOpen? fuel outer .ended rest
    | .ended, .object :: outer, '\x7d' :: rest => afterOpen? fuel outer .ended rest
    | .ended, _, _ => none
    | .item, .array :: outer, ']' :: rest => afterOpen? fuel outer .ended rest
    | .firstField, .object :: outer, '\x7d' :: rest => afterOpen? fuel outer .ended rest
    | .field, _, cs | .firstField, _, cs =>
      match readName? cs with
      | some (_, rest) => afterOpen? fuel brackets .value rest
      | none => none
    | _, _, '[' :: rest => afterOpen? fuel (.array :: brackets) .item rest
    | _, _, '\x7b' :: rest => afterOpen? fuel (.object :: brackets) .firstField rest
    | _, _, cs =>
      match readPlain? cs with
      | some (_, rest) => afterOpen? fuel brackets .ended rest
      | none => none

def afterValue? (cs : List Char) : Option (List Char) := afterOpen? (cs.length + 2) [] .value cs

end StageTree.Json
