/-! Control characters, the general category Cc. -/

namespace StageTree.Text

/-- A character of the category Cc. -/
def isControl (c : Char) : Bool := c.toNat < 0x20 || (0x7F ≤ c.toNat && c.toNat ≤ 0x9F)

def withoutControl (s : String) : String := String.ofList (s.toList.filter fun c => !isControl c)

end StageTree.Text
