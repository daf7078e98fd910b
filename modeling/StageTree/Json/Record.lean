import StageTree.Json.Reader

/-! Reading JSON values as records and variants. A record is an object with its fields by name, or an
array with its fields by place; fields of other names are passed over. Of several faults the one
that comes first in the text is reported, and a field that is missing only if nothing else is wrong.
A value is read along its text, or after it is held as a whole; the two differ in the faults of
arrays with too many items and of variants in odd shapes, and in what they make of an excess. -/

namespace StageTree.Json

/-- Why a text or a value does not fit a type. A text that stands for a value of its own may be refused
for a reason of its own. -/
inductive Misfit where
  | notJson
  | invalidType
  | invalidValue
  | invalidLength
  | missingField (name : String)
  | duplicateField (name : String)
  | unknownVariant (name : String)
  | refused (reason : String)
  deriving DecidableEq, Repr

def Misfit.shown : Misfit → String
  | notJson => "not json"
  | invalidType => "invalid type"
  | invalidValue => "invalid value"
  | invalidLength => "invalid length"
  | missingField name => "missing field `" ++ name ++ "`"
  | duplicateField name => "duplicate field `" ++ name ++ "`"
  | unknownVariant name => "unknown variant `" ++ name ++ "`"
  | refused reason => reason

/-- How a value is read: along its text, or after it is held as a whole. -/
inductive Origin where
  | text
  | held
  deriving DecidableEq, Repr

/-- The fault of an array with too many items: along the text it is not known where the array ends. -/
def Origin.surplus : Origin → Misfit
  | text => .invalidType
  | held => .invalidLength

/-! ### Plain values -/

def toText : Json → Except Misfit String
  | .string s => .ok s
  | _ => .error .invalidType

def toBool : Json → Except Misfit Bool
  | .bool b => .ok b
  | _ => .error .invalidType

/-- A whole number of 64 bits; a negative one has the right type and a wrong value. -/
def toNat : Json → Except Misfit Nat
  | .number (.whole n) => .ok n
  | .number (.negative _) => .error .invalidValue
  | _ => .error .invalidType

def toOption {α : Type} (read : Json → Except Misfit α) : Json → Except Misfit (Option α)
  | .null => .ok none
  | j => (read j).map some

def toList {α : Type} (read : Json → Except Misfit α) : Json → Except Misfit (List α)
  | .array items => items.mapM read
  | _ => .error .invalidType

/-- The fields of an object, each read as the same type. -/
def toFields {α : Type} (read : Json → Except Misfit α) : Json → Except Misfit (List (String × α))
  | .object fields => fields.mapM fun f => (read f.2).map (f.1, ·)
  | _ => .error .invalidType

/-! ### Records -/

/-- Where the fields of a record stand. -/
inductive Fields where
  | named (fields : List (String × Json))
  | placed (items : List Json)

/-- A reader of fields that follow each other in a record, given the place of the first one. Its
faults carry the place where they show. -/
structure Record (α : Type) where
  width : Nat
  read : Fields → Nat → Except (Nat × Misfit) α

/-- The fault that shows first. -/
def earlier (a b : Nat × Misfit) : Nat × Misfit := if b.1 < a.1 then b else a

namespace Record

variable {α β : Type}

instance : Applicative Record where
  pure a := ⟨0, fun _ _ => .ok a⟩
  map f r := ⟨r.width, fun fs i => (r.read fs i).map f⟩
  seq r s :=
    let s := s ()
    ⟨r.width + s.width, fun fs i =>
      match r.read fs i, s.read fs (i + r.width) with
      | .ok f, .ok a => .ok (f a)
      | .error e, .ok _ => .error e
      | .ok _, .error e => .error e
      | .error d, .error e => .error (earlier d e)⟩

/-- The places and values of the fields of a name, counting from a place. -/
def occurrences (name : String) : Nat → List (String × Json) → List (Nat × Json)
  | _, [] => []
  | i, (k, j) :: rest =>
    if k = name then (i, j) :: occurrences name (i + 1) rest else occurrences name (i + 1) rest

/-- One field, with the value that it takes where it is missing, if it may be. -/
def field (name : String) (absent : Option α) (read : Json → Except Misfit α) : Record α :=
  ⟨1, fun fs i =>
    match fs with
    | .named fields =>
      match occurrences name 0 fields with
      | [] =>
        match absent with
        | some a => .ok a
        | none => .error (fields.length, .missingField name)
      | (here, j) :: again =>
        match read j, again with
        | .error e, _ => .error (here, e)
        | .ok a, [] => .ok a
        | .ok _, (there, _) :: _ => .error (there, .duplicateField name)
    | .placed items =>
      match items[i]?, absent with
      | none, some a => .ok a
      | none, none => .error (i, .invalidLength)
      | some j, _ => (read j).mapError (i, ·)⟩

def required (name : String) (read : Json → Except Misfit α) : Record α := field name none read

def optional (name : String) (read : Json → Except Misfit α) : Record (Option α) :=
  field name (some none) (toOption read)

def defaulted (name : String) (a : α) (read : Json → Except Misfit α) : Record α :=
  field name (some a) read

def ofJson (origin : Origin) (r : Record α) : Json → Except Misfit α
  | .object fields => (r.read (.named fields) 0).mapError (·.2)
  | .array items =>
    match r.read (.placed items) 0 with
    | .error (_, e) => .error e
    | .ok a => if r.width < items.length then .error origin.surplus else .ok a
  | _ => .error .invalidType

end Record

/-! ### Variants -/

variable {α : Type}

/-- A variant without content, by its name, or as an object with that name alone and null. An object
that is held is first seen to have one field. -/
def toVariant (variant : String → Option α) (origin : Origin) : Json → Except Misfit α
  | .string name => (variant name).elim (.error (.unknownVariant name)) .ok
  | .object fields =>
    match origin, fields with
    | .held, [] | .held, _ :: _ :: _ => .error .invalidValue
    | .text, [] => .error .invalidType
    | _, (name, j) :: rest =>
      match variant name, j, rest with
      | none, _, _ => .error (.unknownVariant name)
      | some a, .null, [] => .ok a
      | some _, _, _ => .error .invalidType
  | _ => .error .invalidType

/-- What is left beside the tag of a variant that has no content. -/
def noContent (a : α) : Json → Except Misfit α
  | .array (_ :: _) => .error .invalidLength
  | _ => .ok a

/-- A variant with its name in a field of the record, or first in the array, that holds its content.
The whole is held before it is read, so that an excess anywhere in it is a fault. -/
def toTagged (tag : String) (variant : String → Option (Json → Except Misfit α)) (j : Json) :
    Except Misfit α :=
  if j.hasExcess then .error .notJson
  else match j with
  | .object fields =>
    match Record.occurrences tag 0 fields with
    | [] => .error (.missingField tag)
    | (_, j) :: again => do
      let name ← toText j
      match variant name, again with
      | none, _ => .error (.unknownVariant name)
      | some _, _ :: _ => .error (.duplicateField tag)
      | some read, [] => read (.object (fields.filter (·.1 != tag)))
  | .array [] => .error (.missingField tag)
  | .array (j :: items) => do
    let name ← toText j
    match variant name with
    | none => .error (.unknownVariant name)
    | some read => read (.array items)
  | _ => .error .invalidType

/-! ### Whole texts and trees -/

/-- A text read as a value of a type. An excess does no harm where it is passed over; beside any
fault it makes the text no JSON. -/
def decode (read : Origin → Json → Except Misfit α) (text : String) : Except Misfit α :=
  match readLoosely? depthLimit text.toList with
  | none => .error .notJson
  | some j =>
    match read .text j with
    | .ok a => .ok a
    | .error m => .error (if j.hasExcess then .notJson else m)

/-- A tree read as a value of a type. The last of equal names stands, and names come in order. -/
def adopt (read : Origin → Json → Except Misfit α) (j : Json) : Except Misfit α :=
  read .held j.sorted

end StageTree.Json
