import Arboretum.Address
import Arboretum.Pattern.Segment

/-!
# Path patterns

A path pattern is a list of segments, one for each name on the way.  Its text may start with a
scheme or a slash (then it has a **root** of its own), repeated slashes and `.` count for nothing,
`..` stays a segment, and a slash at the end asks for directories only.
-/

namespace Arboretum

/-- A path pattern. -/
structure Pattern where
  text : String
  segments : List Pattern.Segment
  directoriesOnly : Bool
  root : Option String
deriving DecidableEq, Repr

namespace Pattern

/-! ## 1. Reading -/

/-- The name that climbs; as a segment it never matches. -/
def climbing : String := ".."

/-- The texts of the segments: the fields that are neither empty nor `.`. -/
def segmentTexts (rest : String) : List String :=
  ((Path.fields rest.toList).filter fun f => f ≠ [] ∧ f ≠ Path.here).map String.ofList

/-- The root that a text names by its scheme or its first slash. -/
def rootOf (scheme rest : String) : Option String :=
  let rooted := rest.toList.head? = some '/'
  if scheme ≠ "" then some (scheme ++ if rooted then "/" else "")
  else if rooted then some "/"
  else none

/-- Reading every text in turn; the first flaw ends it. -/
def readAll : List String → Except Flaw (List Segment)
  | [] => .ok []
  | text :: texts =>
    match Segment.read text with
    | .error flaw => .error flaw
    | .ok segment =>
      match readAll texts with
      | .error flaw => .error flaw
      | .ok segments => .ok (segment :: segments)

/-- **The pattern of a text**, or the first flaw in it. -/
def read (text : String) : Except Flaw Pattern :=
  let (scheme, rest) := Address.split text
  let root := rootOf scheme rest
  let texts := segmentTexts rest
  match readAll texts with
  | .error flaw => .error flaw
  | .ok segments =>
    .ok {
      text
      segments
      directoriesOnly := rest.toList.getLast? = some '/' && (!texts.isEmpty || root.isSome)
      root }

/-! ## 2. Parts -/

/-- The pattern has a root of its own. -/
def isRooted (p : Pattern) : Bool := p.root.isSome

/-- How many segments are wild. -/
def wildCount (p : Pattern) : Nat := p.segments.countP Segment.isWild

/-- The names that a pattern starts with, up to the first wild or climbing segment. -/
def literalHead (p : Pattern) : List String :=
  (p.segments.map Segment.literal?).takeWhile (fun n => n.isSome && n ≠ some climbing)
    |>.filterMap id

/-- The text holds one of the characters that make a segment wild. -/
def hasWildChar (text : String) : Bool := text.toList.any fun c => c = '*' || c = '?' || c = '['

end Pattern

end Arboretum
