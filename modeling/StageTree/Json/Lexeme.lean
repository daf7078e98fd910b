import StageTree.Json.Basic
import StageTree.Json.Magnitude

/-! The lexemes of JSON text: blanks, strings and numbers. A code point outside the basic plane is a
pair of escapes. A lexeme that is well formed and has no value is read as none: a string with half
such a pair, a number that exceeds double precision. -/

namespace StageTree.Json

/-- A blank between lexemes. -/
def isGap (c : Char) : Bool := c = ' ' || c = '\n' || c = '\t' || c = '\r'

def skipGap (cs : List Char) : List Char := cs.dropWhile isGap

def hexValue? (c : Char) : Option Nat :=
  if '0' ≤ c ∧ c ≤ '9' then some (c.toNat - '0'.toNat)
  else if 'a' ≤ c ∧ c ≤ 'f' then some (c.toNat - 'a'.toNat + 10)
  else if 'A' ≤ c ∧ c ≤ 'F' then some (c.toNat - 'A'.toNat + 10)
  else none

def readHex? : List Char → Option (Nat × List Char)
  | a :: b :: c :: d :: rest => do
    let n := ((← hexValue? a) * 16 + (← hexValue? b)) * 16 + (← hexValue? c)
    some (n * 16 + (← hexValue? d), rest)
  | _ => none

/-- The code point of an escape by number, its second half included. -/
def readPoint? (cs : List Char) : Option (Char × List Char) := do
  let (n, rest) ← readHex? cs
  if 0xD800 ≤ n ∧ n ≤ 0xDBFF then
    match rest with
    | '\\' :: 'u' :: rest =>
      let (m, rest) ← readHex? rest
      if 0xDC00 ≤ m ∧ m ≤ 0xDFFF then
        some (Char.ofNat (0x10000 + (n - 0xD800) * 0x400 + (m - 0xDC00)), rest)
      else none
    | _ => none
  else if 0xDC00 ≤ n ∧ n ≤ 0xDFFF then none
  else some (Char.ofNat n, rest)

/-- What a backslash and the character stand for, by number apart. -/
def unescape? (c : Char) : Option Char :=
  if c = '"' ∨ c = '\\' ∨ c = '/' then some c
  else if c = 'b' then some '\x08'
  else if c = 'f' then some '\x0c'
  else if c = 'n' then some '\n'
  else if c = 'r' then some '\r'
  else if c = 't' then some '\t'
  else none

/-- One character of a string that is not its closing quote. -/
def readChar? : List Char → Option (Char × List Char)
  | '\\' :: 'u' :: rest => readPoint? rest
  | '\\' :: c :: rest => (unescape? c).map (·, rest)
  | c :: rest => if c.toNat < 0x20 then none else some (c, rest)
  | [] => none

theorem readHex?_length {cs rest : List Char} {n : Nat} (h : readHex? cs = some (n, rest)) :
    rest.length < cs.length := by
  unfold readHex? at h
  split at h
  · simp only [Option.bind_eq_bind, Option.bind_eq_some_iff, Option.some.injEq, Prod.mk.injEq] at h
    obtain ⟨_, _, _, _, _, _, _, _, _, rfl⟩ := h
    simp only [List.length_cons]; omega
  · simp at h

theorem readPoint?_length {cs rest : List Char} {c : Char} (h : readPoint? cs = some (c, rest)) :
    rest.length < cs.length := by
  simp only [readPoint?, Option.bind_eq_bind, Option.bind_eq_some_iff] at h
  obtain ⟨⟨n, rest'⟩, hn, h⟩ := h
  have hn := readHex?_length hn
  split at h
  · split at h
    case h_1 rest'' hr =>
      have hl := congrArg List.length hr
      simp only [List.length_cons] at hl
      simp only [Option.bind_eq_some_iff] at h
      obtain ⟨⟨m, last⟩, hm, h⟩ := h
      have hm := readHex?_length hm
      split at h
      · simp only [Option.some.injEq, Prod.mk.injEq] at h
        obtain ⟨_, rfl⟩ := h
        omega
      · simp at h
    case h_2 => simp at h
  · split at h
    · simp at h
    · simp only [Option.some.injEq, Prod.mk.injEq] at h
      obtain ⟨_, rfl⟩ := h
      exact hn

theorem readChar?_length {cs rest : List Char} {c : Char} (h : readChar? cs = some (c, rest)) :
    rest.length < cs.length := by
  unfold readChar? at h
  split at h
  · have := readPoint?_length h
    simp only [List.length_cons]; omega
  · simp only [Option.map_eq_some_iff, Prod.mk.injEq] at h
    obtain ⟨_, _, _, rfl⟩ := h
    simp only [List.length_cons]; omega
  · split at h
    · simp at h
    · simp only [Option.some.injEq, Prod.mk.injEq] at h
      obtain ⟨_, rfl⟩ := h
      simp
  · simp at h

/-- A string after its opening quote. -/
def readString? (cs : List Char) : Option (List Char × List Char) :=
  match cs with
  | '"' :: rest => some ([], rest)
  | cs =>
    match _h : readChar? cs with
    | none => none
    | some (c, rest) =>
      match readString? rest with
      | none => none
      | some (s, rest) => some (c :: s, rest)
termination_by cs.length
decreasing_by exact readChar?_length _h

/-- The rest after a string, which may hold half a pair, after its opening quote. -/
def afterString? : List Char → Option (List Char)
  | [] => none
  | '"' :: rest => some rest
  | '\\' :: 'u' :: a :: b :: c :: d :: rest =>
    if (readHex? [a, b, c, d]).isSome then afterString? rest else none
  | '\\' :: c :: rest => if (unescape? c).isSome then afterString? rest else none
  | c :: rest => if c.toNat < 0x20 then none else afterString? rest

/-- A string after its opening quote, none if it holds half a pair. -/
def readText? (cs : List Char) : Option (Option String × List Char) :=
  match readString? cs with
  | some (s, rest) => some (some (String.ofList s), rest)
  | none => (afterString? cs).map (none, ·)

def readDigits (cs : List Char) : List Nat × List Char :=
  ((cs.takeWhile Char.isDigit).map fun c => c.toNat - '0'.toNat, cs.dropWhile Char.isDigit)

def ofDigits (ds : List Nat) : Nat := ds.foldl (fun n d => n * 10 + d) 0

/-- The part of a number after its point, if it has one. -/
def readFraction? : List Char → Option (Option (List Nat) × List Char)
  | '.' :: rest =>
    let (ds, rest) := readDigits rest
    if ds.isEmpty then none else some (some ds, rest)
  | cs => some (none, cs)

def readExponent? : List Char → Option (Option Int × List Char)
  | [] => some (none, [])
  | c :: rest =>
    if c = 'e' ∨ c = 'E' then
      let (minus, rest) := match rest with
        | '-' :: rest => (true, rest)
        | '+' :: rest => (false, rest)
        | rest => (false, rest)
      let (ds, rest) := readDigits rest
      if ds.isEmpty then none
      else some (some (if minus then -(ofDigits ds : Int) else ofDigits ds), rest)
    else some (none, c :: rest)

/-- A number without its sign. -/
def readUnsigned? (negative : Bool) (cs : List Char) : Option (Option Number × List Char) := do
  let (ds, rest) := readDigits cs
  if ds.isEmpty ∨ (ds.head? = some 0 ∧ ds.length ≠ 1) then none
  else
    let (fraction, rest) ← readFraction? rest
    let (exponent, rest) ← readExponent? rest
    let sign := if negative then ['-'] else []
    let text := String.ofList (sign ++ cs.take (cs.length - rest.length))
    let n := ofDigits ds
    let plain := fraction.isNone && exponent.isNone
    if plain ∧ !negative ∧ n < UInt64.size then some (some (.whole n), rest)
    else if plain ∧ negative ∧ 0 < n ∧ n ≤ UInt64.size / 2 then some (some (.negative n), rest)
    else if tooLarge ds (fraction.getD []) (exponent.getD 0) then some (none, rest)
    else some (some (.real text), rest)

/-- A number, none if it is too large. -/
def readNumber? : List Char → Option (Option Number × List Char)
  | '-' :: cs => readUnsigned? true cs
  | cs => readUnsigned? false cs

def afterText? : List Char → List Char → Option (List Char)
  | [], cs => some cs
  | w :: ws, c :: cs => if w = c then afterText? ws cs else none
  | _ :: _, [] => none

/-- A value that holds no other, by its first character. -/
def readPlain? : List Char → Option (Json × List Char)
  | '"' :: rest => (readText? rest).map fun (s, rest) => (s.elim .excess .string, rest)
  | 'n' :: rest => (afterText? ['u', 'l', 'l'] rest).map (.null, ·)
  | 't' :: rest => (afterText? ['r', 'u', 'e'] rest).map (.bool true, ·)
  | 'f' :: rest => (afterText? ['a', 'l', 's', 'e'] rest).map (.bool false, ·)
  | cs => (readNumber? cs).map fun (n, rest) => (n.elim .excess .number, rest)

/-- The name of a field, none if it holds half a pair, and the colon after it. -/
def readName? (cs : List Char) : Option (Option String × List Char) :=
  match skipGap cs with
  | '"' :: rest =>
    match readText? rest with
    | some (k, rest) =>
      match skipGap rest with
      | ':' :: rest => some (k, rest)
      | _ => none
    | none => none
  | _ => none

end StageTree.Json
