import StageTree.Text.Utf8

/-! What a file holds, as bytes and as text. What the system says about a file that it does not hand
out stands for the file. -/

namespace StageTree

/-- What reading a file gives: its bytes, or why there are none. -/
abbrev Contents := Except String (List UInt8)

def Contents.text : Contents → Except String String
  | .error reason => .error reason
  | .ok bytes => (Text.readStrict? bytes).elim (.error "stream did not contain valid UTF-8") .ok

end StageTree
