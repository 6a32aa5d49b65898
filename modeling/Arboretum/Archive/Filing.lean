import Arboretum.Archive.Summary
import Arboretum.World

/-!
# Archiving a directory

The files of a directory are stored in two stores that share a table, one for each shelf, both
registered in the common registry while the archive is in use.  Then three patterns are globbed,
and a summary tells what was stored, skipped and found.  A file is skipped when its store or the
disk refuses; any other fault ends the archive, that of a name which cannot be encoded among them.
-/

namespace Arboretum.Archive

/-! ## 1. Stores -/

/-- The mount of a shelf's store. -/
def Shelf.mount (shelf : Shelf) : String := Store.tableScheme ++ shelf.name

/-- The store of a shelf on a table. -/
def Shelf.store (shelf : Shelf) (number table : Nat) : Store :=
  ⟨number, shelf.mount, .table table shelf.name⟩

/-- The faults for which a file is skipped: those of a store or of the disk. -/
def isSkipped : Fault → Bool
  | .invalidPattern _ _ | .cancelled _ | .baseMissing _ | .placeMissing _ | .directoryExpected _
  | .unsupported _ _ | .noDatabaseAddress => false
  | .foreign label _ =>
    ["OSError", "FileNotFoundError", "FileExistsError", "NotADirectoryError", "IsADirectoryError",
      "PermissionError"].contains label
  | _ => true

/-- **Doing something with each member of a list in turn**, as long as nothing fails. -/
def each {α β : Type} (act : α → World → Except Fault β × World) :
    List α → World → Except Fault (List β) × World
  | [], w => (.ok [], w)
  | a :: as, w =>
    match act a w with
    | (.error f, w) => (.error f, w)
    | (.ok b, w) =>
      match each act as w with
      | (.error f, w) => (.error f, w)
      | (.ok bs, w) => (.ok (b :: bs), w)

/-! ## 2. Storing -/

/-- The handle of some names below the root of a shelf. -/
def targetOf (shelf : Shelf) (names : List String) : Traversal Empty Handle := do
  let root ← Handle.ofAddress (shelf.mount ++ "/") none
  root.join names

/-- Making the directory of a target. -/
def makeRoom (target : Handle) : Traversal Empty Unit := do
  let above ← target.parent
  above.makeDir true

/-- Storing one file of the disk at its target. -/
def storeFile (w : World) (target : Handle) (path : String) : Except Fault Unit × World :=
  match w.run none (makeRoom target) with
  | (.failed f, w) => (.error f, w)
  | (.spent, w) => (.ok (), w)
  | (.finished _, w) =>
    match w.storage.disk.read path with
    | .error f => (.error f, w)
    | .ok data =>
      match w.run none (target.write data : Traversal Empty Unit) with
      | (.failed f, w) => (.error f, w)
      | (_, w) => (.ok (), w)

/-- **Storing a stray file**: its path cannot be encoded for the table.  That shows when its directory
is made, or when the file is written if the directory has a text for a path; and the line about a file
that was skipped before that cannot be encoded either. -/
def storeStray (w : World) (shelf : Shelf) (target : Handle) (place : Stray) : Fault × World :=
  let path := Sign.slash :: place.path
  if place.isHeld then
    match w.run none (makeRoom target) with
    | (.failed f, w) =>
      (if isSkipped f then unencodable (signsOf ("  SKIP " ++ shelf.mount) ++ path) else f, w)
    | (_, w) => (unencodable path, w)
  else (unencodable path, w)

/-- **Storing one item** at its place on a shelf: the file, if it is skipped. -/
def storeItem (directory : String) (shelf : Shelf) (item : Item) (w : World) :
    Except Fault (Option Skipped) × World :=
  match w.run none (targetOf shelf item.shownNames) with
  | (.failed f, w) => (.error f, w)
  | (.spent, w) => (.ok none, w)
  | (.finished (_, target), w) =>
    match item with
    | .stray place =>
      match storeStray w shelf target place with
      | (f, w) => (.error f, w)
    | .named names =>
      match storeFile w target (pathBelow directory names) with
      | (.ok _, w) => (.ok none, w)
      | (.error f, w) =>
        if isSkipped f then (.ok (some ⟨target.uri, f.label⟩), w) else (.error f, w)

/-- **Storing the items of a shelf in turn**: the files that are skipped. -/
def storeAll (directory : String) (shelf : Shelf) (items : List Item) (w : World) :
    Except Fault (List Skipped) × World :=
  match each (storeItem directory shelf) items w with
  | (.error f, w) => (.error f, w)
  | (.ok skipped, w) => (.ok (skipped.filterMap id), w)

/-! ## 3. Globbing -/

/-- The patterns that an archive globs. -/
def patterns : List String := ["db://code/src/*/*.py", "db://code/src/*/fs/*.py", "db://docs/*.md"]

/-- The glob of one pattern. -/
def globAll (pattern : String) : Traversal Match Unit := do
  let (base, number, p) ← Glob.prepare (.handle ⟨"", none⟩) pattern none
  Glob.run number true base p

/-- The matches of one pattern. -/
def findOne (pattern : String) (w : World) : Except Fault (String × List Match) × World :=
  match w.run none (globAll pattern) with
  | (.failed f, w) => (.error f, w)
  | (.spent, w) => (.ok (pattern, []), w)
  | (.finished (found, _), w) => (.ok (pattern, found), w)

/-! ## 4. The archive -/

/-- Storing both shelves and globbing them. -/
def fill (directory : String) (collected : Collected) (w : World) : Except Fault Summary × World :=
  match storeAll directory .code collected.code w with
  | (.error f, w) => (.error f, w)
  | (.ok skippedCode, w) =>
    match storeAll directory .docs collected.docs w with
    | (.error f, w) => (.error f, w)
    | (.ok skippedDocs, w) =>
      match each findOne patterns w with
      | (.error f, w) => (.error f, w)
      | (.ok found, w) => (.ok ⟨collected, skippedCode, skippedDocs, found⟩, w)

/-- The world without a file of the disk. -/
def dropFile (path : String) (w : World) : World :=
  match w.storage.disk.removeLeaf path with
  | .ok d => { w with storage := w.storage.setDisk d }
  | .error _ => w

/-- **Archiving a directory**, its stray places among the rest: both stores are registered while it
lasts, and the file of the database does not outlive it. -/
def archive (directory database : String) (strays : List Stray) (w : World) :
    Except Fault Summary × World :=
  match collect w.storage.disk strays directory with
  | .error f => (.error f, w)
  | .ok collected =>
    let (table, w) := w.newNumber
    let (codeNumber, w) := w.newNumber
    let (docsNumber, w) := w.newNumber
    let code := Shelf.code.store codeNumber table
    let docs := Shelf.docs.store docsNumber table
    let w := w.changeRegistry commonRegistry fun g => (g.register code).register docs
    let (outcome, w) := fill directory collected w
    let w := w.changeRegistry commonRegistry fun g => (g.unregister code).unregister docs
    match outcome with
    | .error f => (.error f, w)
    | .ok summary => (.ok summary, dropFile database w)

end Arboretum.Archive
