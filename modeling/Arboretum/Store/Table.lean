import Arboretum.Entry
import Arboretum.Path.Virtual
import Arboretum.Pattern.Like
import Arboretum.Store.Change

/-!
# Trees in a table of rows

A table keeps each entry as a row: the space it belongs to, its path, the path of its directory,
its name and its content.  Several spaces may share a table; a store sees the rows of one.  The
root has no row.  A row is found by exactly its path, a listing is the rows whose directory is the
path, by name.  A list of hints narrows a listing only when all of them have a `LIKE` text.
-/

namespace Arboretum

/-- One entry of a table. -/
structure Row where
  space : String
  path : String
  parent : String
  name : String
  isDirectory : Bool
  content : ByteArray
  size : Nat

/-- The rows of a table, oldest first. -/
abbrev Table := List Row

namespace Table

/-! ## 1. Looking up -/

/-- The row of a path in a space. -/
def find? (t : Table) (space path : String) : Option Row :=
  List.find? (fun row => row.space = space && row.path = path) t

/-- The rows directly below a path in a space. -/
def below (t : Table) (space path : String) : List Row :=
  t.filter fun row => row.space = space && row.parent = path

/-- The directory that holds a path's last name, and the name. -/
def holder (t : Table) (space path : String) : Except Fault (String × String) :=
  let (above, name) := Path.split path
  if name = "" then .error (.rootDirectory path)
  else if above = Path.root then .ok (above, name)
  else
    match t.find? space above with
    | none => .error (.parentMissing above)
    | some row => if row.isDirectory then .ok (above, name) else .error (.notDirectory above)

/-! ## 2. Reading -/

/-- The rows below a path in name order, as entries that pass the hints. -/
def entries (t : Table) (space path : String) (hints : List String) : List Entry :=
  (((t.below space path).filter fun row => Pattern.Like.passes hints row.name).mergeSort
    fun a b => decide (a.name ≤ b.name)).map fun row => ⟨row.name, row.isDirectory⟩

/-- **Listing**: the entries in name order that pass the hints. -/
def list (t : Table) (space path : String) (hints : List String) : Except Fault (List Entry) :=
  let path := Path.clean path
  if path = Path.root then .ok (t.entries space path hints)
  else
    match t.find? space path with
    | none => .error (.directoryMissing path)
    | some row =>
      if row.isDirectory then .ok (t.entries space path hints) else .error (.notDirectory path)

/-- **Stat**: what is known about a place; the root is a directory without a time. -/
def stat (t : Table) (space path : String) : Option Info :=
  let path := Path.clean path
  if path = Path.root then some ⟨Path.root, "", true, none, false⟩
  else
    (t.find? space path).map fun row =>
      ⟨row.path, row.name, row.isDirectory, if row.isDirectory then none else some row.size, true⟩

/-- **Reading** a file. -/
def read (t : Table) (space path : String) : Except Fault ByteArray :=
  let path := Path.clean path
  match t.find? space path with
  | none => .error (.fileMissing path)
  | some row => if row.isDirectory then .error (.isDirectory path) else .ok row.content

/-! ## 3. Changing -/

/-- The table with the content of one row replaced. -/
def refill (t : Table) (space path : String) (data : ByteArray) : Table :=
  t.map fun row =>
    if row.space = space && row.path = path then { row with content := data, size := data.size }
    else row

/-- **Writing** a file, over an older one or into an existing directory. -/
def write (t : Table) (space path : String) (data : ByteArray) : Except Fault Table :=
  let path := Path.clean path
  match t.holder space path with
  | .error f => .error f
  | .ok (above, name) =>
    match t.find? space path with
    | none => .ok (t ++ [⟨space, path, above, name, false, data, data.size⟩])
    | some row =>
      if row.isDirectory then .error (.isDirectory path) else .ok (t.refill space path data)

/-- Making one directory in an existing one. -/
def makeOne (t : Table) (space path : String) : Except Fault Table :=
  if path = Path.root then .error (.rootDirectory path)
  else if (t.find? space path).isSome then .error (.alreadyExists path)
  else
    match t.holder space path with
    | .error f => .error f
    | .ok (above, name) => .ok (t ++ [⟨space, path, above, name, true, .empty, 0⟩])

/-- A directory stands at a path. -/
def hasDirectory (t : Table) (space path : String) : Bool :=
  ((t.stat space path).map Info.isDirectory).getD false

/-- One level of a directory and its parents: the root and a directory that is there are left
alone. -/
def makeLevel (space path : String) (t : Table) : Changed Table :=
  if path = Path.root ∨ t.hasDirectory space path then (.ok (), t)
  else .whole t (t.makeOne space path)

/-- The levels to make for a path, highest first: the path, and above it every ancestor whose
place is empty.  A path has no more levels than characters. -/
def missingLevels (t : Table) (space : String) : Nat → String → List String
  | 0, path => [path]
  | depth + 1, path =>
    if path = Path.root ∨ t.hasDirectory space path then [path]
    else
      let above := Path.parent path
      if (t.stat space above).isNone then
        t.missingLevels space depth (Path.clean above) ++ [path]
      else [path]

/-- **Making a directory**, on request with its missing parents. -/
def makeDir (t : Table) (space path : String) (parents : Bool) : Changed Table :=
  let path := Path.clean path
  if parents then Changed.inTurn (makeLevel space) (t.missingLevels space path.length path) t
  else .whole t (t.makeOne space path)

/-- **Removing** a file or an empty directory. -/
def remove (t : Table) (space path : String) : Except Fault Table :=
  let path := Path.clean path
  match t.find? space path with
  | none => .error (.entryMissing path)
  | some row =>
    if row.isDirectory && !(t.below space path).isEmpty then .error (.notEmpty path)
    else .ok (t.filter fun row => !(row.space = space && row.path = path))

end Table

/-- **The address of a database**: the one that is given, else the one of the surroundings;
an empty one counts as none. -/
def databaseAddress (given surroundings : Option String) : Except Fault String :=
  match given.filter (· ≠ ""), surroundings.filter (· ≠ "") with
  | some address, _ => .ok address
  | none, some address => .ok address
  | none, none => .error .noDatabaseAddress

end Arboretum
