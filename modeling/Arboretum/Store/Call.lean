import Arboretum.Entry
import Arboretum.Store.Identity

/-!
# Calls of a store

What a program may ask of a store, and what kind of answer belongs to each question.
-/

namespace Arboretum

/-- One question to a store. -/
inductive Call where
  | list (path : String) (hints : List String)
  | stat (path : String)
  | join (parts : List String)
  | read (path : String)
  | write (path : String) (data : ByteArray)
  | makeDir (path : String) (parents : Bool)
  | remove (path : String)

namespace Call

/-- The operation that a call asks for. -/
def operation : Call → Operation
  | .list _ _ => .list
  | .stat _ => .stat
  | .join _ => .join
  | .read _ => .read
  | .write _ _ => .write
  | .makeDir _ _ => .makeDir
  | .remove _ => .remove

/-- What an answered call brings. -/
abbrev Answer : Call → Type
  | .list _ _ => List Entry
  | .stat _ => Option Info
  | .join _ => String
  | .read _ => ByteArray
  | .write _ _ => Unit
  | .makeDir _ _ => Unit
  | .remove _ => Unit

/-- The path that a call is about; joining is about all its parts. -/
def path : Call → String
  | .list path _ => path
  | .stat path => path
  | .join parts => "/".intercalate parts
  | .read path => path
  | .write path _ => path
  | .makeDir path _ => path
  | .remove path => path

end Call

end Arboretum
