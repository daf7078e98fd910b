import StageTree.Json.Basic

/-! The text of a JSON value: compact, or indented by two spaces. A string escapes the quote, the
backslash and the characters below the space, and nothing else. An excess, which no value of the
library has, prints as null. -/

namespace StageTree.Json

def hexDigit (n : Nat) : Char := Nat.digitChar n

def escapeChar (c : Char) : List Char :=
  if c = '"' then ['\\', '"']
  else if c = '\\' then ['\\', '\\']
  else if c = '\x08' then ['\\', 'b']
  else if c = '\x0c' then ['\\', 'f']
  else if c = '\n' then ['\\', 'n']
  else if c = '\r' then ['\\', 'r']
  else if c = '\t' then ['\\', 't']
  else if c.toNat < 0x20 then ['\\', 'u', '0', '0', hexDigit (c.toNat / 16), hexDigit (c.toNat % 16)]
  else [c]

def printString (s : String) : List Char := '"' :: s.toList.flatMap escapeChar ++ ['"']

def printNumber : Number → List Char
  | .whole n => Nat.toDigits 10 n
  | .negative n => '-' :: Nat.toDigits 10 n
  | .real text => text.toList

/-- The parts with a comma between each two. -/
def separate (comma : List Char) : List (List Char) → List Char
  | [] => []
  | [p] => p
  | p :: ps => p ++ comma ++ separate comma ps

mutual

def print : Json → List Char
  | .null | .excess => ['n', 'u', 'l', 'l']
  | .bool true => ['t', 'r', 'u', 'e']
  | .bool false => ['f', 'a', 'l', 's', 'e']
  | .number n => printNumber n
  | .string s => printString s
  | .array items => '[' :: separate [','] (printItems items) ++ [']']
  | .object fields => '{' :: separate [','] (printFields fields) ++ ['}']

def printItems : List Json → List (List Char)
  | [] => []
  | j :: js => print j :: printItems js

def printFields : List (String × Json) → List (List Char)
  | [] => []
  | (k, j) :: fs => (printString k ++ ':' :: print j) :: printFields fs

end

def compact (j : Json) : String := String.ofList j.print

def newline (depth : Nat) : List Char := '\n' :: List.replicate (2 * depth) ' '

/-- Parts between brackets, each on a line of its own; nothing between the brackets of an empty list. -/
def block (opening closing : Char) (depth : Nat) (parts : List (List Char)) : List Char :=
  if parts.isEmpty then [opening, closing]
  else opening :: newline (depth + 1) ++ separate (',' :: newline (depth + 1)) parts ++
    newline depth ++ [closing]

mutual

def printAt (depth : Nat) : Json → List Char
  | .array items => block '[' ']' depth (printItemsAt (depth + 1) items)
  | .object fields => block '{' '}' depth (printFieldsAt (depth + 1) fields)
  | .null | .excess => print .null
  | .bool b => print (.bool b)
  | .number n => printNumber n
  | .string s => printString s

def printItemsAt (depth : Nat) : List Json → List (List Char)
  | [] => []
  | j :: js => printAt depth j :: printItemsAt depth js

def printFieldsAt (depth : Nat) : List (String × Json) → List (List Char)
  | [] => []
  | (k, j) :: fs => (printString k ++ ':' :: ' ' :: printAt depth j) :: printFieldsAt depth fs

end

def indented (j : Json) : String := String.ofList (j.printAt 0)

end StageTree.Json
