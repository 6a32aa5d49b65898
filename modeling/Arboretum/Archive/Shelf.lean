import Arboretum.Path.Lexical

/-!
# Which shelf a file belongs to

An archive keeps source code and documents apart and leaves everything else out.  Where a file
belongs shows in its path alone: files below a tool's own directories and files whose name starts
with a dot are left out, and the last extension of the name decides about the rest, whatever the
case of its letters.
-/

namespace Arboretum.Archive

/-- The two shelves of an archive. -/
inductive Shelf where
  | code
  | docs
deriving DecidableEq, Repr

/-- The name of a shelf. -/
def Shelf.name : Shelf → String
  | .code => "code"
  | .docs => "docs"

/-! ## 1. Tables -/

/-- The extensions of source code. -/
def codeExtensions : List String := [".py", ".js", ".ts", ".go", ".rs", ".c", ".h", ".java"]

/-- The extensions of documents. -/
def docsExtensions : List String :=
  [".md", ".txt", ".rst", ".toml", ".yaml", ".yml", ".json", ".cfg", ".ini"]

/-- The directories that tools keep for themselves. -/
def toolDirectories : List String :=
  [".git", ".venv", "__pycache__", ".pytest_cache", ".mypy_cache", ".ruff_cache", "node_modules",
    ".idea"]

/-! ## 2. Names and extensions -/

/-- The names on a path: its fields, less the empty ones and `.`. -/
def namesOn (path : String) : List String :=
  ((Path.fields path.toList).filter fun f => f ≠ [] ∧ f ≠ Path.here).map String.ofList

/-- **The extension of a name**: from its last dot on, unless the dot is its first or its last
character. -/
def extension (name : String) : String :=
  let cs := name.toList
  let tail := (cs.reverse.takeWhile (· != '.')).reverse
  if tail.length + 1 < cs.length ∧ tail ≠ [] then String.ofList ('.' :: tail) else ""

/-- A text with the letters of ASCII in lower case. -/
def lower (s : String) : String := String.ofList (s.toList.map Char.toLower)

/-! ## 3. The decision -/

/-- **The shelf of a path**, or `none` for a file that is left out. -/
def shelfOf (path : String) : Option Shelf :=
  let names := namesOn path
  let name := names.getLastD ""
  if names.any (toolDirectories.contains ·) || name.toList.head? = some '.' then none
  else
    let extension := lower (extension name)
    if codeExtensions.contains extension then some .code
    else if docsExtensions.contains extension then some .docs
    else none

end Arboretum.Archive
