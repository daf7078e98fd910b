import StageTree.Text.Blank

/-! Instants of time in the universal calendar, read and written in the form of RFC 3339. -/

namespace StageTree

/-- An instant: the day counted from 1970-01-01, the second of the day, and the part of the second in
nanoseconds, a full second or more of which is a leap second. -/
structure Instant where
  day : Int
  second : Nat
  nanos : Nat
  deriving DecidableEq, Repr, Inhabited

namespace Instant

/-- The instant so many milliseconds after the start of 1970. -/
def ofMillis (ms : Nat) : Instant :=
  ⟨(ms / 86400000 : Nat), ms / 1000 % 86400, ms % 1000 * 1000000⟩

/-- Whole milliseconds from one instant to another, none if the second comes first. -/
def millisUntil (a b : Instant) : Nat :=
  let nanos (i : Instant) : Int := (i.day * 86400 + i.second) * 1000000000 + i.nanos
  ((nanos b - nanos a) / 1000000).toNat

/-- The days before a year, a year counted from March, since March of year 0. -/
def daysBeforeYear (y : Int) : Int := 365 * y + y.fdiv 4 - y.fdiv 100 + y.fdiv 400

/-- The days before a month in a year that starts with March. -/
def daysBeforeMonth (m : Nat) : Nat := (153 * m + 2) / 5

def dayOfDate (year : Int) (month day : Nat) : Int :=
  let y := if month ≤ 2 then year - 1 else year
  let m := (month + 9) % 12
  daysBeforeYear y + daysBeforeMonth m + day - 1 - 719468

/-- The date of a day: year, month and day of the month. -/
def dateOfDay (n : Int) : Int × Nat × Nat :=
  let z := n + 719468
  let era := z.fdiv 146097
  let dayOfEra := (z - era * 146097).toNat
  let yearOfEra := (dayOfEra - dayOfEra / 1460 + dayOfEra / 36524 - dayOfEra / 146096) / 365
  let dayOfYear := dayOfEra - (365 * yearOfEra + yearOfEra / 4 - yearOfEra / 100)
  let m := (5 * dayOfYear + 2) / 153
  let month := if m < 10 then m + 3 else m - 9
  let year := (yearOfEra : Int) + era * 400
  (if month ≤ 2 then year + 1 else year, month, dayOfYear - daysBeforeMonth m + 1)

def isLeapYear (y : Int) : Bool := y % 4 = 0 && (y % 100 ≠ 0 || y % 400 = 0)

def daysInMonth (year : Int) (month : Nat) : Nat :=
  if month = 2 then (if isLeapYear year then 29 else 28)
  else if month = 4 ∨ month = 6 ∨ month = 9 ∨ month = 11 then 30
  else 31

example : dayOfDate 1970 1 1 = 0 ∧ dayOfDate 2000 2 29 = 11016 ∧ dateOfDay 11016 = (2000, 2, 29) := by
  decide

/-! ### Writing -/

def padded (width n : Nat) : String :=
  let ds := Nat.toDigits 10 n
  String.ofList (List.replicate (width - ds.length) '0' ++ ds)

/-- A year: four digits, with a sign and five places outside of them. -/
def yearText (y : Int) : String :=
  if 0 ≤ y ∧ y ≤ 9999 then padded 4 y.toNat
  else (if y < 0 then "-" else "+") ++ padded 4 y.natAbs

/-- The part of a second: as many groups of three digits as are not zero at the end. -/
def fractionText (nanos : Nat) : String :=
  if nanos = 0 then ""
  else if nanos % 1000000 = 0 then "." ++ padded 3 (nanos / 1000000)
  else if nanos % 1000 = 0 then "." ++ padded 6 (nanos / 1000)
  else "." ++ padded 9 nanos

def text (i : Instant) : String :=
  let (year, month, day) := dateOfDay i.day
  yearText year ++ "-" ++ padded 2 month ++ "-" ++ padded 2 day ++ "T" ++
    padded 2 (i.second / 3600) ++ ":" ++ padded 2 (i.second / 60 % 60) ++ ":" ++
    padded 2 (i.second % 60 + i.nanos / 1000000000) ++ fractionText (i.nanos % 1000000000) ++ "Z"

/-! ### Reading

A part is read from the front of a text, and leaves the rest. -/

/-- Why a text gives no instant. -/
inductive Fault where
  | outOfRange
  | impossible
  | invalid
  | tooShort
  | tooLong
  deriving DecidableEq, Repr

def Fault.message : Fault → String
  | outOfRange => "input is out of range"
  | impossible => "no possible date and time matching input"
  | invalid => "input contains invalid characters"
  | tooShort => "premature end of input"
  | tooLong => "trailing input"

/-- The text without the blanks before a part. -/
def skipSpace (cs : List Char) : List Char := cs.dropWhile Text.isBlank

def digitValue (c : Char) : Nat := c.toNat - '0'.toNat

/-- A number of one digit up to a width, which 63 bits have to hold. -/
def readNumber (width : Nat) (cs : List Char) : Except Fault (Nat × List Char) :=
  let ds := (cs.take width).takeWhile Char.isDigit
  let n := ds.foldl (fun n c => n * 10 + digitValue c) 0
  if cs.isEmpty then .error .tooShort
  else if ds.isEmpty then .error .invalid
  else if n < Nat.pow 2 63 then .ok (n, cs.drop ds.length)
  else .error .outOfRange

/-- A number of one or two digits between two bounds, blanks before it passed over. -/
def readField (least greatest : Nat) (cs : List Char) : Except Fault (Nat × List Char) := do
  let (n, rest) ← readNumber 2 (skipSpace cs)
  if least ≤ n ∧ n ≤ greatest then .ok (n, rest) else .error .outOfRange

/-- A year of four digits at most, or of any number of digits after a sign. -/
def readYear (cs : List Char) : Except Fault (Int × List Char) := do
  let (year, rest) ← match skipSpace cs with
    | '-' :: cs => (readNumber cs.length cs).map fun (n, rest) => (-(n : Int), rest)
    | '+' :: cs => (readNumber cs.length cs).map fun (n, rest) => ((n : Int), rest)
    | cs => (readNumber 4 cs).map fun (n, rest) => ((n : Int), rest)
  if -2147483648 ≤ year ∧ year < 2147483648 then .ok (year, rest) else .error .outOfRange

/-- The rest after a mark, blanks before it passed over. -/
def afterMark (mark : Char) (cs : List Char) : Except Fault (List Char) :=
  match skipSpace cs with
  | c :: rest => if c = mark then .ok rest else .error .invalid
  | [] => .error .tooShort

/-- The rest after the character between date and time. -/
def afterDivider : List Char → Except Fault (List Char)
  | c :: rest => if c = 'T' ∨ c = 't' ∨ c = ' ' then .ok rest else .error .invalid
  | [] => .error .tooShort

/-- The part of a second in nanoseconds: digits beyond the ninth are dropped. -/
def readFraction : List Char → Except Fault (Nat × List Char)
  | '.' :: cs => do
    let (n, rest) ← readNumber 9 cs
    .ok (n * Nat.pow 10 (9 - (cs.length - rest.length)), rest.dropWhile Char.isDigit)
  | cs => .ok (0, cs)

/-- Two digits. A single character that is left may be the first of them. -/
def readPair : List Char → Except Fault ((Nat × Nat) × List Char)
  | a :: b :: rest =>
    if a.isDigit ∧ b.isDigit then .ok ((digitValue a, digitValue b), rest) else .error .invalid
  | [c] => .error (if c.toNat < 0x80 then .tooShort else .invalid)
  | [] => .error .tooShort

/-- The seconds by which a place is ahead of the universal time, after its sign. -/
def readAhead (cs : List Char) : Except Fault (Nat × List Char) := do
  let ((h, h'), rest) ← readPair cs
  let ((m, m'), rest) ← readPair (rest.dropWhile fun c => c = ':' || Text.isBlank c)
  if m ≤ 5 then .ok (((h * 10 + h') * 60 + m * 10 + m') * 60, rest) else .error .outOfRange

/-- The seconds by which a place is ahead of the universal time. -/
def readOffset : List Char → Except Fault (Int × List Char)
  | c :: cs =>
    if c = 'Z' ∨ c = 'z' then .ok (0, cs)
    else if c = '+' then (readAhead cs).map fun (n, rest) => ((n : Int), rest)
    else if c = '-' ∨ c = '\u2212' then (readAhead cs).map fun (n, rest) => (-(n : Int), rest)
    else .error .invalid
  | [] => .error .tooShort

/-- The offset at the end of a text; the name UTC stands for none. -/
def readZone (cs : List Char) : Except Fault (Int × List Char) :=
  match cs with
  | u :: t :: c :: rest =>
    if u.toUpper = 'U' ∧ t.toUpper = 'T' ∧ c.toUpper = 'C' then .ok (0, rest) else readOffset cs
  | cs => readOffset cs

def readDate (cs : List Char) : Except Fault ((Int × Nat × Nat) × List Char) := do
  let (year, rest) ← readYear cs
  let (month, rest) ← readField 1 12 (← afterMark '-' rest)
  let (day, rest) ← readField 1 31 (← afterMark '-' rest)
  .ok ((year, month, day), rest)

/-- The time of day at the front: its second and nanoseconds, those of second 60 beyond a billion. -/
def readTime (cs : List Char) : Except Fault ((Nat × Nat) × List Char) := do
  let (hour, rest) ← readField 0 23 cs
  let (minute, rest) ← readField 0 59 (← afterMark ':' rest)
  let (second, rest) ← readField 0 60 (← afterMark ':' rest)
  let (nanos, rest) ← readFraction rest
  let leap := second = 60
  .ok (((hour * 60 + minute) * 60 + (if leap then 59 else second),
    if leap then nanos + 1000000000 else nanos), rest)

/-- The least and the greatest year of an instant. -/
def hasYear (year : Int) : Bool := -262143 ≤ year && year ≤ 262142

/-- The instant of a date and a time of day at a place. -/
def atPlace (date : Int × Nat × Nat) (time : Nat × Nat) (offset : Int) : Except Fault Instant :=
  let (year, month, day) := date
  let (second, nanos) := time
  if !hasYear year ∨ daysInMonth year month < day ∨ offset.natAbs ≥ 86400 then .error .outOfRange
  else
    let total := dayOfDate year month day * 86400 + second - offset
    let i : Instant := ⟨total.fdiv 86400, (total.fmod 86400).toNat, nanos⟩
    if hasYear (dateOfDay i.day).1 then .ok i else .error .impossible

def ofText (s : String) : Except Fault Instant := do
  let (date, rest) ← readDate s.toList
  let (time, rest) ← readTime (← afterDivider rest)
  let (offset, rest) ← readZone (skipSpace rest)
  if (skipSpace rest).isEmpty then atPlace date time offset else .error .tooLong

end Instant

end StageTree
