/-! JSON values. Objects keep the order of their fields and fields that are given twice; numbers
are exact as far as 64 bits hold them. What a text may say and a value cannot hold is an excess. -/

namespace StageTree

/-- A number: a whole one of 64 bits, a negative whole one of 64 bits, or any other by its text. -/
inductive Json.Number where
  | whole (n : Nat)
  | negative (n : Nat)
  | real (text : String)
  deriving DecidableEq, Repr

/-- A JSON value. An excess stands for a well-formed value beyond the limits: a number that exceeds
double precision, a text with half a pair of escapes, an object with such a name, or a value that
lies too deep. -/
inductive Json where
  | null
  | bool (b : Bool)
  | number (n : Json.Number)
  | string (s : String)
  | array (items : List Json)
  | object (fields : List (String × Json))
  | excess
  deriving Repr, Inhabited

namespace Json

def nat (n : Nat) : Json := .number (.whole n)

def strings (ss : List String) : Json := .array (ss.map .string)

def ofOption {α : Type} (f : α → Json) : Option α → Json
  | none => .null
  | some a => f a

def field? (name : String) : Json → Option Json
  | .object fields => fields.lookup name
  | _ => none

def nameLE (a b : String × Json) : Bool := decide (a.1 ≤ b.1)

/-- The fields without those that a later field of the same name replaces. -/
def lastOfEach : List (String × Json) → List (String × Json)
  | [] => []
  | (k, v) :: rest => if rest.any (·.1 == k) then lastOfEach rest else (k, v) :: lastOfEach rest

/-- Fields collected in a map: sorted by name, the last of equal names standing. -/
def collect (fields : List (String × Json)) : List (String × Json) := (lastOfEach fields).mergeSort nameLE

mutual

/-- The value with the fields of every object sorted by name, the last of equal names standing. -/
def sorted : Json → Json
  | .array items => .array (sortedItems items)
  | .object fields => .object ((lastOfEach (sortedFields fields)).mergeSort nameLE)
  | j => j

def sortedItems : List Json → List Json
  | [] => []
  | j :: js => sorted j :: sortedItems js

def sortedFields : List (String × Json) → List (String × Json)
  | [] => []
  | (k, j) :: fs => (k, sorted j) :: sortedFields fs

end

mutual

def hasExcess : Json → Bool
  | .excess => true
  | .array items => anyExcess items
  | .object fields => anyFieldExcess fields
  | _ => false

def anyExcess : List Json → Bool
  | [] => false
  | j :: js => hasExcess j || anyExcess js

def anyFieldExcess : List (String × Json) → Bool
  | [] => false
  | (_, j) :: fs => hasExcess j || anyFieldExcess fs

end

mutual

/-- How many arrays and objects of a value lie in each other, plain values counting one. -/
def depth : Json → Nat
  | .array items => depthItems items + 1
  | .object fields => depthFields fields + 1
  | _ => 1

def depthItems : List Json → Nat
  | [] => 0
  | j :: js => max (depth j) (depthItems js)

def depthFields : List (String × Json) → Nat
  | [] => 0
  | (_, j) :: fs => max (depth j) (depthFields fs)

end

mutual

def same : Json → Json → Bool
  | .null, .null => true
  | .bool a, .bool b => a == b
  | .number m, .number n => m == n
  | .string s, .string t => s == t
  | .array as, .array bs => sameItems as bs
  | .object fs, .object gs => sameFields fs gs
  | .excess, .excess => true
  | _, _ => false

def sameItems : List Json → List Json → Bool
  | [], [] => true
  | a :: as, b :: bs => same a b && sameItems as bs
  | _, _ => false

def sameFields : List (String × Json) → List (String × Json) → Bool
  | [], [] => true
  | (k, a) :: fs, (l, b) :: gs => k == l && same a b && sameFields fs gs
  | _, _ => false

end

mutual

theorem same_iff : (a b : Json) → (same a b = true ↔ a = b)
  | .null, b | .bool _, b | .number _, b | .string _, b | .excess, b => by cases b <;> simp [same]
  | .array as, b => by cases b <;> simp [same, sameItems_iff as]
  | .object fs, b => by cases b <;> simp [same, sameFields_iff fs]

theorem sameItems_iff : (as bs : List Json) → (sameItems as bs = true ↔ as = bs)
  | [], bs => by cases bs <;> simp [sameItems]
  | a :: as, bs => by cases bs <;> simp [sameItems, same_iff a, sameItems_iff as]

theorem sameFields_iff : (fs gs : List (String × Json)) → (sameFields fs gs = true ↔ fs = gs)
  | [], gs => by cases gs <;> simp [sameFields]
  | (k, a) :: fs, gs => by
    rcases gs with _ | ⟨⟨l, b⟩, gs⟩ <;> simp [sameFields, same_iff a, sameFields_iff fs]

end

instance : DecidableEq Json := fun a b => decidable_of_iff _ (same_iff a b)

end Json

end StageTree
