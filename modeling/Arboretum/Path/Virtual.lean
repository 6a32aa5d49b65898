import Arboretum.Path.Lexical
import Arboretum.Text.Blank

/-!
# Virtual paths

The stores that this library keeps itself (in memory, in a table of rows) address their entries by
**clean** paths: blanks at both ends are cut off, the path is rooted at one slash, and it is in
normal form, so that no path climbs above the root.  `clean` makes any text such a path, `split`
takes it apart into the directory and the last name, and `join` puts parts together.
-/

namespace Arboretum.Path

/-! ## 1. Cleaning -/

/-- The text with a slash in front of it. -/
def rooted : List Char → List Char
  | '/' :: rest => '/' :: rest
  | cs => '/' :: cs

/-- The characters of the clean path of a text. -/
def cleanChars (cs : List Char) : List Char := singleSlash (normal (rooted (Text.trim cs)))

/-- **The clean path** that a text stands for; the empty text stands for the root. -/
def clean (path : String) : String := String.ofList (cleanChars path.toList)

/-- The path of the root. -/
def root : String := "/"

/-! ## 2. Taking apart -/

/-- **The directory and the last name** of the clean path of a text; the root is its own directory
and has the empty name. -/
def split (path : String) : String × String :=
  let cs := cleanChars path.toList
  if cs = ['/'] then (root, "")
  else (String.ofList (beforeLast cs), String.ofList (lastField cs))

/-- The directory of the clean path of a text. -/
def parent (path : String) : String := (split path).1

/-- The last name of the clean path of a text. -/
def name (path : String) : String := (split path).2

/-- The names on the way from the root to a text's clean path. -/
def names (path : String) : List String :=
  ((fields (cleanChars path.toList)).filter (· ≠ [])).map String.ofList

/-! ## 3. Putting together -/

/-- The characters of several parts with slashes between those that are not empty. -/
def joinChars (parts : List (List Char)) : List Char := cleanChars (unfields (parts.filter (· ≠ [])))

/-- **The clean path of several parts**, read one below the other; empty parts say nothing. -/
def join (parts : List String) : String := String.ofList (joinChars (parts.map String.toList))

end Arboretum.Path
