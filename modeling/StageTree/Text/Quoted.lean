import StageTree.Text.Unseen

/-! A character or a text as a message shows it: between quotes, on one line, with every character
that would not be seen written as an escape. -/

namespace StageTree.Text

/-- The digits of a number to base sixteen, in lower case. -/
def hexDigits (n : Nat) : String := String.ofList (Nat.toDigits 16 n)

/-- One character inside the quote `q`. -/
def shownInside (q : Char) (c : Char) : String :=
  if c = '\x00' then "\\0"
  else if c = '\t' then "\\t"
  else if c = '\r' then "\\r"
  else if c = '\n' then "\\n"
  else if c = '\\' then "\\\\"
  else if c = q then String.ofList ['\\', q]
  else if isUnseen c then "\\u\x7b" ++ hexDigits c.toNat ++ "\x7d"
  else String.singleton c

def shownChar (c : Char) : String := "'" ++ shownInside '\'' c ++ "'"

def shownText (s : String) : String := "\"" ++ String.join (s.toList.map (shownInside '"')) ++ "\""

end StageTree.Text
