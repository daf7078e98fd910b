/-! What a text shows once the sequences that steer a terminal are taken out of it. A sequence begins
with an escape and ends with its last character, at a control character that shows, or where another
sequence begins. -/

namespace StageTree.Text.Terminal

/-- Where a terminal stands: in plain text, after an escape, after an escape and what chooses a set of
characters, in a control sequence, in a title, in the head of a message to the device (its first
character, its numbers, what comes between them and the message), or in a message. -/
inductive Mode where
  | plain | escape | choice | sequence | title | head | numbers | joint | message
  deriving DecidableEq, Repr

/-- A control character that shows. -/
def isLayout (c : Char) : Bool := c = '\t' || c = '\n' || c = '\x0c' || c = '\r'

/-- What a character that shows begins after an escape. -/
def Mode.ofIntroducer (c : Char) : Mode :=
  if c.toNat < 0x30 then .choice
  else if c = '[' then .sequence
  else if c = ']' then .title
  else if c = 'P' then .head
  else if c = 'X' ∨ c = '^' ∨ c = '_' then .message
  else .plain

def terminator : UInt8 := 0x9c

/-- Whether a character beyond ASCII ends a message: one of its bytes does, whatever the others are. -/
def endsMessage (c : Char) : Bool := (String.utf8EncodeChar c).contains terminator

/-- Where the terminal stands after a character in the head of a message. -/
def Mode.inHead (mode : Mode) (c : Char) : Mode :=
  if c.toNat < 0x20 ∨ c = '\x7f' then mode
  else if c.toNat < 0x30 then .joint
  else if c.toNat < 0x3c ∧ mode ≠ .joint then .numbers
  else if c.toNat < 0x40 ∧ mode = .head then .numbers
  else .message

/-- Where the terminal stands after a character beyond ASCII, and what shows of it. -/
def Mode.readBeyond (mode : Mode) (c : Char) : Mode × List Char :=
  if mode = .plain then (.plain, [c])
  else (if mode = .message ∧ endsMessage c then .plain else mode, [])

def Mode.read (mode : Mode) (c : Char) : Mode × List Char :=
  if c = '\x1b' then (.escape, [])
  else if c = '\x18' ∨ c = '\x1a' then (.plain, [])
  else if 0x80 ≤ c.toNat then mode.readBeyond c
  else
    match mode with
    | .title => (if c = '\x07' then .plain else .title, [])
    | .head | .numbers | .joint => (mode.inHead c, [])
    | .message => (.message, [])
    | mode =>
      if isLayout c then (.plain, [c])
      else if c.toNat < 0x20 ∨ c = '\x7f' then (mode, [])
      else
        match mode with
        | .escape => (.ofIntroducer c, [])
        | .choice => (if c.toNat < 0x30 then .choice else .plain, [])
        | .sequence => (if c.toNat < 0x40 then .sequence else .plain, [])
        | _ => (.plain, [c])

def shown : Mode → List Char → List Char
  | _, [] => []
  | mode, c :: cs => (mode.read c).2 ++ shown (mode.read c).1 cs

end Terminal

/-- A text without the sequences that steer a terminal. -/
def withoutSequences (s : String) : String := String.ofList (Terminal.shown .plain s.toList)

end StageTree.Text
