import Arboretum.Entry
import Arboretum.Forest
import Arboretum.Path.Virtual
import Arboretum.Pattern.Shell
import Arboretum.Store.Change

/-!
# Trees in memory

The simplest store: a forest of files and folders, addressed by virtual paths.  Every operation
takes its path as it comes; looking up cleans it.  Listings are in name order, and a list of hints
narrows them to the names that the shell's reading of some hint matches.  Making a directory with
its parents goes up to the first ancestor that is there and makes the levels from there down, one
after the other.
-/

namespace Arboretum

/-- A tree of files in memory. -/
abbrev MemoryTree := Forest ByteArray

namespace MemoryTree

/-! ## 1. Looking up -/

/-- What stands at a path. -/
def lookup (t : MemoryTree) (path : String) : Option (Node ByteArray) := t.at? (Path.names path)

/-- The directory that holds a path's last name: its own path, its inside, and the name. -/
def holder (t : MemoryTree) (path : String) :
    Except Fault (List String × Forest ByteArray × String) :=
  let (above, name) := Path.split path
  if name = "" then .error (.rootDirectory path)
  else
    match t.lookup above with
    | none => .error (.parentMissing above)
    | some (.leaf _) => .error (.notDirectory above)
    | some (.folder inside) => .ok (Path.names above, inside, name)

/-! ## 2. Reading -/

/-- **Listing**: the entries in name order that pass the hints. -/
def list (t : MemoryTree) (path : String) (hints : List String) : Except Fault (List Entry) :=
  match t.lookup path with
  | none => .error (.directoryMissing path)
  | some (.leaf _) => .error (.notDirectory path)
  | some (.folder inside) =>
    .ok ((inside.toList.map fun (name, node) => ⟨name, node.isFolder⟩).filter fun entry =>
      Pattern.Shell.passes hints entry.name)

/-- **Stat**: what is known about a place, or nothing when it is empty. -/
def stat (t : MemoryTree) (path : String) : Option Info :=
  let path := Path.clean path
  (t.lookup path).map fun
    | .folder _ => ⟨path, Path.name path, true, none, true⟩
    | .leaf data => ⟨path, Path.name path, false, some data.size, true⟩

/-- **Reading** a file. -/
def read (t : MemoryTree) (path : String) : Except Fault ByteArray :=
  match t.lookup path with
  | none => .error (.fileMissing path)
  | some (.folder _) => .error (.isDirectory path)
  | some (.leaf data) => .ok data

/-! ## 3. Changing -/

/-- **Writing** a file, over an older one or into an existing directory. -/
def write (t : MemoryTree) (path : String) (data : ByteArray) : Except Fault MemoryTree :=
  match t.holder path with
  | .error f => .error f
  | .ok (above, inside, name) =>
    match inside.find? name with
    | some (.folder _) => .error (.isDirectory path)
    | _ => .ok (t.change (Forest.put name (.leaf data)) above)

/-- Making one directory in an existing one. -/
def makeOne (t : MemoryTree) (path : String) : Except Fault MemoryTree :=
  match t.holder path with
  | .error f => .error f
  | .ok (above, inside, name) =>
    if (inside.find? name).isSome then .error (.alreadyExists path)
    else .ok (t.change (Forest.put name (.folder .empty)) above)

/-- One level of a directory and its parents: a directory that is there is left alone. -/
def makeLevel (path : String) (t : MemoryTree) : Changed MemoryTree :=
  match t.lookup path with
  | some (.folder _) => (.ok (), t)
  | _ => .whole t (t.makeOne path)

/-- The levels to make for a path, highest first: the path, and above it every ancestor whose
place is empty.  A path has no more levels than characters. -/
def missingLevels (t : MemoryTree) : Nat → String → List String
  | 0, path => [path]
  | depth + 1, path =>
    let above := Path.parent path
    if above ≠ path ∧ (t.lookup above).isNone then
      t.missingLevels depth (Path.clean above) ++ [path]
    else [path]

/-- **Making a directory**, on request with its missing parents. -/
def makeDir (t : MemoryTree) (path : String) (parents : Bool) : Changed MemoryTree :=
  let path := Path.clean path
  if parents then Changed.inTurn makeLevel (t.missingLevels path.length path) t
  else .whole t (t.makeOne path)

/-- **Removing** a file or an empty directory. -/
def remove (t : MemoryTree) (path : String) : Except Fault MemoryTree :=
  match t.holder path with
  | .error f => .error f
  | .ok (above, inside, name) =>
    match inside.find? name with
    | none => .error (.entryMissing path)
    | some (.folder (.leaf ..)) | some (.folder (.folder ..)) => .error (.notEmpty path)
    | some _ => .ok (t.change (Forest.erase name) above)

/-- Adding one file with the directories above it, or one directory. -/
def addOne (item : String × Option ByteArray) (t : MemoryTree) : Changed MemoryTree :=
  match item with
  | (path, none) => t.makeDir path true
  | (path, some data) =>
    match t.makeDir (Path.parent path) true with
    | (.ok _, made) => .whole made (made.write path data)
    | failed => failed

/-- **Adding** files and directories one after the other. -/
def add (t : MemoryTree) (items : List (String × Option ByteArray)) : Changed MemoryTree :=
  Changed.inTurn addOne items t

end MemoryTree

end Arboretum
