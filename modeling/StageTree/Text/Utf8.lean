/-! Bytes read as UTF-8. An ill-formed stretch counts once as far as it starts a character, and
then reading goes on. -/

namespace StageTree.Text

/-- The ranges that the bytes after a lead byte have to lie in; `none` if it leads nothing. -/
def followers (b : UInt8) : Option (List (UInt8 × UInt8)) :=
  if b < 0x80 then some []
  else if b < 0xC2 then none
  else if b < 0xE0 then some [(0x80, 0xBF)]
  else if b = 0xE0 then some [(0xA0, 0xBF), (0x80, 0xBF)]
  else if b = 0xED then some [(0x80, 0x9F), (0x80, 0xBF)]
  else if b < 0xF0 then some [(0x80, 0xBF), (0x80, 0xBF)]
  else if b = 0xF0 then some [(0x90, 0xBF), (0x80, 0xBF), (0x80, 0xBF)]
  else if b < 0xF4 then some [(0x80, 0xBF), (0x80, 0xBF), (0x80, 0xBF)]
  else if b = 0xF4 then some [(0x80, 0x8F), (0x80, 0xBF), (0x80, 0xBF)]
  else none

/-- The bytes that lie in their ranges, up to the first that does not. -/
def following : List (UInt8 × UInt8) → List UInt8 → List UInt8
  | (lo, hi) :: rs, b :: bs => if lo ≤ b && b ≤ hi then b :: following rs bs else []
  | _, _ => []

/-- The bits of a lead byte that belong to the code point, by the number of bytes after it. -/
def leadBits (n : Nat) (b : UInt8) : Nat :=
  match n with
  | 0 => b.toNat
  | 1 => b.toNat % 32
  | 2 => b.toNat % 16
  | _ => b.toNat % 8

def codePoint (b : UInt8) (bs : List UInt8) : Nat :=
  bs.foldl (fun n x => n * 64 + x.toNat % 64) (leadBits bs.length b)

/-- The characters of a byte string, with `none` for each ill-formed stretch. -/
def utf8 : List UInt8 → List (Option Char)
  | [] => []
  | b :: bs =>
    match followers b with
    | none => none :: utf8 bs
    | some ranges =>
      let tail := following ranges bs
      let here := if tail.length = ranges.length then some (Char.ofNat (codePoint b tail)) else none
      here :: utf8 (bs.drop tail.length)
termination_by bytes => bytes.length
decreasing_by all_goals simp_wf; try omega

/-- The text of a byte string, U+FFFD standing for each ill-formed stretch. -/
def readLossy (bytes : List UInt8) : String :=
  String.ofList ((utf8 bytes).map fun c => c.getD '\ufffd')

def readStrict? (bytes : List UInt8) : Option String :=
  ((utf8 bytes).mapM id).map String.ofList

end StageTree.Text
