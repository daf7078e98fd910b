/-! Tokens of pipeline source, their positions, and the errors of reading it. -/

namespace StageTree.Source

/-- A place in source text, both counts from one. -/
structure Position where
  line : Nat
  column : Nat
  deriving DecidableEq, Repr, Inhabited

namespace Position

def start : Position := ⟨1, 1⟩

/-- The place after a character: only a line feed starts a line. -/
def next (p : Position) (c : Char) : Position :=
  if c = '\n' then ⟨p.line + 1, 1⟩ else ⟨p.line, p.column + 1⟩

def after (p : Position) (cs : List Char) : Position := cs.foldl next p

end Position

/-- What a token is: a word, a quoted text without its quotes, or a mark. -/
inductive Lexeme where
  | word (name : String)
  | text (value : String)
  | openBrace
  | closeBrace
  | openParen
  | closeParen
  | colon
  | comma
  deriving DecidableEq, Repr, Inhabited

def Lexeme.shown : Lexeme → String
  | word name => "identifier '" ++ name ++ "'"
  | text value => "string \"" ++ value ++ "\""
  | openBrace => "'\x7b'"
  | closeBrace => "'\x7d'"
  | openParen => "'('"
  | closeParen => "')'"
  | colon => "':'"
  | comma => "','"

/-- A lexeme and the place of its first character. -/
structure Token where
  lexeme : Lexeme
  position : Position
  deriving DecidableEq, Repr, Inhabited

/-- What the grammar wants at a place. -/
inductive Expected where
  | keyword (word : String)
  | mark (lexeme : Lexeme)
  | agent
  | image
  | stageName
  | stageClause
  | stepCommand
  | stepArgument
  | paramName
  | paramValue
  | boolean
  | ending
  deriving DecidableEq, Repr

def Expected.shown : Expected → String
  | keyword word => "'" ++ word ++ "'"
  | mark lexeme => lexeme.shown
  | agent => "'none' or '\x7b'"
  | image => "image string"
  | stageName => "stage name string"
  | stageClause => "'agent', 'steps', 'failFast', 'parallel' or '\x7d'"
  | stepCommand => "step command"
  | stepArgument => "string or 'key: value' parameter"
  | paramName => "parameter name"
  | paramValue => "parameter value string"
  | boolean => "'true' or 'false'"
  | ending => "end of input"

end StageTree.Source
