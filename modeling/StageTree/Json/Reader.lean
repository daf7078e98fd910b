import StageTree.Json.Extent

/-! Reading JSON text. A text is one value between blanks; arrays and objects nest to a limited
depth, and what lies deeper is an excess. -/

namespace StageTree.Json

mutual

/-- A value at the front, arrays and objects nesting to the depth. -/
def readValue? : Nat → Nat → List Char → Option (Json × List Char)
  | 0, _, _ => none
  | fuel + 1, depth, cs =>
    match skipGap cs, depth with
    | '[' :: rest, 0 => (afterValue? ('[' :: rest)).map (.excess, ·)
    | '[' :: rest, depth + 1 =>
      match skipGap rest with
      | ']' :: rest => some (.array [], rest)
      | _ => (readItems? fuel depth rest).map fun (js, rest) => (.array js, rest)
    | '\x7b' :: rest, 0 => (afterValue? ('\x7b' :: rest)).map (.excess, ·)
    | '\x7b' :: rest, depth + 1 =>
      match skipGap rest with
      | '\x7d' :: rest => some (.object [], rest)
      | _ => (readFields? fuel depth rest).map fun (fs, rest) => (fs.elim .excess .object, rest)
    | cs, _ => readPlain? cs

def readItems? : Nat → Nat → List Char → Option (List Json × List Char)
  | 0, _, _ => none
  | fuel + 1, depth, cs => do
    let (j, rest) ← readValue? fuel depth cs
    match skipGap rest with
    | ',' :: rest =>
      let (js, rest) ← readItems? fuel depth rest
      some (j :: js, rest)
    | ']' :: rest => some ([j], rest)
    | _ => none

/-- The fields of an object that has some, none if a name has no value, and its end. -/
def readFields? : Nat → Nat → List Char → Option (Option (List (String × Json)) × List Char)
  | 0, _, _ => none
  | fuel + 1, depth, cs => do
    let (k, rest) ← readName? cs
    let (j, rest) ← readValue? fuel depth rest
    let first := k.map (·, j)
    match skipGap rest with
    | ',' :: rest =>
      let (fs, rest) ← readFields? fuel depth rest
      some (first.bind fun f => fs.map (f :: ·), rest)
    | '\x7d' :: rest => some (first.map ([·]), rest)
    | _ => none

end

/-- How deep arrays and objects of a text nest at most. -/
def depthLimit : Nat := 127

/-- The value of a whole text, with an excess for what exceeds the limits. -/
def readLoosely? (depth : Nat) (cs : List Char) : Option Json :=
  match readValue? (2 * cs.length + 2) depth cs with
  | some (j, rest) => if (skipGap rest).isEmpty then some j else none
  | none => none

/-- The value of a whole text that keeps within the limits and nests to the depth. -/
def readWithin? (depth : Nat) (cs : List Char) : Option Json :=
  match readLoosely? depth cs with
  | some j => if j.hasExcess then none else some j
  | none => none

end StageTree.Json
