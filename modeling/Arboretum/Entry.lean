/-!
# Entries

What a listing says about one entry of a directory, and what a stat says about one place.
-/

namespace Arboretum

/-- One direct entry of a directory, as a listing reports it. -/
structure Entry where
  name : String
  isDirectory : Bool
deriving DecidableEq, Repr

/-- What a stat reports about a place: its path and name, its kind, the size of a file where it is
known, and whether a time of the last change is known. -/
structure Info where
  path : String
  name : String
  isDirectory : Bool
  size : Option Nat
  hasTime : Bool
deriving DecidableEq, Repr

end Arboretum
