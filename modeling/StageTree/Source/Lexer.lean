import StageTree.Source.Error
import StageTree.Text.Blank

/-! From source text to tokens. Between two tokens stand blanks and comments; a quoted text runs to
the next quote of its own kind and keeps every character in between. -/

namespace StageTree.Source

/-- A letter or an underscore. -/
def startsWord (c : Char) : Bool := c.isAlpha || c = '_'

def continuesWord (c : Char) : Bool := c.isAlphanum || c = '_'

/-- A quote of either kind. -/
def isQuote (c : Char) : Bool := c = '"' || c = '\''

/-- The lexeme that is a single character. -/
def mark? (c : Char) : Option Lexeme :=
  if c = '\x7b' then some .openBrace
  else if c = '\x7d' then some .closeBrace
  else if c = '(' then some .openParen
  else if c = ')' then some .closeParen
  else if c = ':' then some .colon
  else if c = ',' then some .comma
  else none

/-- Where the text between two tokens stands: in a gap, in a comment up to the end of its line, or
in a comment between marks that starts at a place. -/
inductive Gap where
  | open
  | line
  | block (start : Position)
  deriving DecidableEq, Repr

/-- The source from the next character on that is neither blank nor in a comment, with its place. -/
def skip : Gap → Position → List Char → Except Error (Position × List Char)
  | .open, p, '/' :: '/' :: cs => skip .line (p.after ['/', '/']) cs
  | .open, p, '/' :: '*' :: cs => skip (.block p) (p.after ['/', '*']) cs
  | .open, p, c :: cs => if Text.isBlank c then skip .open (p.next c) cs else .ok (p, c :: cs)
  | .line, p, c :: cs => skip (if c = '\n' then .open else .line) (p.next c) cs
  | .block _, p, '*' :: '/' :: cs => skip .open (p.after ['*', '/']) cs
  | .block start, p, c :: cs => skip (.block start) (p.next c) cs
  | .block start, _, [] => .error ⟨.unclosedComment, start⟩
  | .open, p, [] => .ok (p, [])
  | .line, p, [] => .ok (p, [])

theorem length_skip_le {g : Gap} {p q : Position} {cs ds : List Char}
    (h : skip g p cs = .ok (q, ds)) : ds.length ≤ cs.length := by
  fun_induction skip g p cs <;> grind

/-- The lexeme that starts with a character, and how many of the characters after it belong to it. -/
def lexeme (c : Char) (cs : List Char) : Except Fault (Lexeme × Nat) :=
  match mark? c with
  | some m => .ok (m, 0)
  | none =>
    if isQuote c then
      let value := cs.takeWhile (· != c)
      if value.length = cs.length then .error .unclosedText
      else .ok (.text (String.ofList value), value.length + 1)
    else if startsWord c then
      let tail := cs.takeWhile continuesWord
      .ok (.word (String.ofList (c :: tail)), tail.length)
    else .error (.strayChar c)

structure Tokens where
  list : List Token
  stop : Position
  deriving DecidableEq, Repr, Inhabited

/-- The tokens of a source that starts at a place. -/
def tokensFrom (p : Position) (cs : List Char) : Except Error Tokens :=
  match _h : skip .open p cs with
  | .error e => .error e
  | .ok (p, []) => .ok ⟨[], p⟩
  | .ok (p, c :: cs) =>
    match lexeme c cs with
    | .error fault => .error ⟨fault, p⟩
    | .ok (l, n) =>
      match tokensFrom (p.after (c :: cs.take n)) (cs.drop n) with
      | .error e => .error e
      | .ok ts => .ok ⟨⟨l, p⟩ :: ts.list, ts.stop⟩
termination_by cs.length
decreasing_by
  have := length_skip_le _h
  simp at this ⊢
  omega

def tokenize (source : String) : Except Error Tokens := tokensFrom .start source.toList

end StageTree.Source
