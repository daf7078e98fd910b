/-! Blank characters, those with the property White_Space, and text without its blank ends. -/

namespace StageTree.Text

/-- The code points with the property White_Space. -/
def blankPoints : List Nat :=
  [0x9, 0xA, 0xB, 0xC, 0xD, 0x20, 0x85, 0xA0, 0x1680, 0x2000, 0x2001, 0x2002, 0x2003, 0x2004, 0x2005,
    0x2006, 0x2007, 0x2008, 0x2009, 0x200A, 0x2028, 0x2029, 0x202F, 0x205F, 0x3000]

/-- A character that separates words and shows nothing. -/
def isBlank (c : Char) : Bool := blankPoints.contains c.toNat

example : blankPoints.length = 25 ∧ blankPoints.Pairwise (· < ·) := by decide

/-- The characters from the first to the last that is not blank. -/
def trimList (cs : List Char) : List Char :=
  ((cs.dropWhile isBlank).reverse.dropWhile isBlank).reverse

def trim (s : String) : String := String.ofList (trimList s.toList)

def trimEnd (s : String) : String := String.ofList (s.toList.reverse.dropWhile isBlank).reverse

def allBlank (s : String) : Bool := s.toList.all isBlank

end StageTree.Text
