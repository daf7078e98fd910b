/-! Waits in virtual time, in milliseconds. A single wait ends after thirty years, however long it
was meant to last. -/

namespace StageTree

def longestWaitMs : Nat := 30 * 365 * 24 * 60 * 60 * 1000

/-- The instant at which a wait that begins now is over. -/
def waitEnd (now ms : Nat) : Nat := now + min ms longestWaitMs

/-- Cancellations that were waited for from the start, in the order in which they come. -/
def cancelsInOrder (cancels : List (Nat × String)) : List (Nat × String) :=
  (cancels.map fun c => (waitEnd 0 c.1, c.2)).mergeSort fun a b => decide (a.1 ≤ b.1)

end StageTree
