/-! Where the steps of a stage run: on the host, or in a container made from an image. -/

namespace StageTree

inductive Agent where
  | none
  | container (image : String)
  deriving DecidableEq, Repr, Inhabited

namespace Agent

/-- The part of a reference after its last slash. -/
def lastSegment (image : List Char) : List Char :=
  (image.reverse.takeWhile (· ≠ '/')).reverse

/-- An image reference with a tag: one with a digest, or a colon after its last slash, has its own,
and any other gets `latest`. -/
def resolveTag (image : String) : String :=
  if image.toList.contains '@' || (lastSegment image.toList).contains ':' then image
  else image ++ ":latest"

def image? : Agent → Option String
  | none => Option.none
  | container image => some (resolveTag image)

def isContainer : Agent → Bool
  | none => false
  | container _ => true

def shown : Agent → String
  | none => "none"
  | container image => "docker " ++ image

end Agent

end StageTree
