import Arboretum.Archive.Collect
import Arboretum.Glob
import Arboretum.Text.Quoted

/-!
# The text of an archive's summary

What is worth telling about an archive: the files collected, those that could not be stored, and
what each glob has found; and how that is written, line by line.
-/

namespace Arboretum.Archive

/-- A file that could not be stored: its address in the archive and the class of the fault. -/
structure Skipped where
  uri : String
  label : String
deriving DecidableEq, Repr

/-- What an archive has to tell. -/
structure Summary where
  collected : Collected
  skippedCode : List Skipped
  skippedDocs : List Skipped
  found : List (String × List Match)
deriving DecidableEq, Repr

namespace Summary

/-- The files of a shelf that could not be stored. -/
def skippedOn (s : Summary) : Shelf → List Skipped
  | .code => s.skippedCode
  | .docs => s.skippedDocs

/-- How many files could not be stored. -/
def failures (s : Summary) : Nat := s.skippedCode.length + s.skippedDocs.length

/-! ## 1. Single lines -/

/-- How many matches of a pattern are shown. -/
def shownMatches : Nat := 5

/-- A headline between two rulers. -/
def headline (title : String) : List String :=
  let ruler := String.ofList (List.replicate 60 '=')
  [ruler, title, ruler]

/-- The line about a file that could not be stored. -/
def skippedLine (skipped : Skipped) : String :=
  "  SKIP " ++ skipped.uri ++ " (" ++ skipped.label ++ ")"

/-- The line about one match. -/
def matchLine (found : Match) : String :=
  "    " ++ found.handle.uri ++ "  captures=" ++ Text.quoteList found.captures

/-! ## 2. Parts -/

/-- The lines at the start: how the directory and the database are called, and what was
collected. -/
def openingLines (s : Summary) (directory database : String) : List String :=
  ["Repo root:    " ++ directory, "SQLite path:  " ++ database, "",
    "Found " ++ toString s.collected.code.length ++ " code files, "
      ++ toString s.collected.docs.length ++ " doc files", ""]

/-- The lines about storing one shelf. -/
def shelfLines (s : Summary) (shelf : Shelf) : List String :=
  (s.skippedOn shelf).map skippedLine
    ++ ["  " ++ shelf.name ++ ": " ++ toString (s.collected.on shelf).length ++ " files"]

/-- The lines about one pattern: how many matches it has, and the first of them. -/
def patternLines (pattern : String) (found : List Match) : List String :=
  ("  " ++ pattern ++ ": " ++ toString found.length ++ " match(es)")
    :: (found.take shownMatches).map matchLine

/-! ## 3. The whole -/

/-- All lines of a summary. -/
def lines (s : Summary) (directory database : String) : List String :=
  s.openingLines directory database
    ++ headline "PHASE 1: Copying files"
    ++ s.shelfLines .code ++ s.shelfLines .docs
    ++ ["  failed: " ++ toString s.failures, ""]
    ++ headline "PHASE 2: Globbing"
    ++ s.found.flatMap fun (pattern, found) => patternLines pattern found

/-- **The text of a summary**, each line ended by a line feed. -/
def text (s : Summary) (directory database : String) : String :=
  String.join ((s.lines directory database).map (· ++ "\n"))

end Summary

end Arboretum.Archive
