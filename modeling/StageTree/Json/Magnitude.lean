/-! Decimal numbers that exceed every binary number of double precision. -/

namespace StageTree.Json

/-- The nearest number with 53 binary digits, a tie going to the even one. -/
def nearest53 (n : Nat) : Nat :=
  if n.log2 < 53 then n
  else
    let unit := Nat.pow 2 (n.log2 - 52)
    let q := n / unit
    let r := n % unit
    let up := if 2 * r > unit || (2 * r == unit && q % 2 == 1) then 1 else 0
    (q + up) * unit

/-- The digits kept of a long decimal, as many as 64 bits hold, and how many whole digits are left. -/
def keptDigits : Nat → List Nat → Nat × List Nat
  | kept, [] => (kept, [])
  | kept, d :: ds => if kept * 10 + d < UInt64.size then keptDigits (kept * 10 + d) ds else (kept, d :: ds)

/-- The kept digits and the power of ten of a decimal with whole digits, digits after the point and
an exponent. -/
def scientific (whole fraction : List Nat) (exponent : Int) : Nat × Int :=
  match keptDigits 0 whole with
  | (kept, []) =>
    let (kept', rest) := keptDigits kept fraction
    (kept', exponent - (fraction.length - rest.length : Nat))
  | (kept, rest) => (kept, exponent + (rest.length : Nat))

/-- A decimal beyond the largest number of double precision. -/
def tooLarge (whole fraction : List Nat) (exponent : Int) : Bool :=
  let (kept, e) := scientific whole fraction exponent
  if kept = 0 then false
  else match e with
    | .negSucc _ => false
    | .ofNat e =>
      308 < e || (Nat.pow 2 54 - 1) * Nat.pow 2 970 ≤ nearest53 kept * nearest53 (Nat.pow 10 e)

end StageTree.Json
