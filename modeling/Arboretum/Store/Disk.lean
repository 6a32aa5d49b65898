import Arboretum.Entry
import Arboretum.Forest
import Arboretum.Path.Host
import Arboretum.Pattern.Shell
import Arboretum.Store.Change

/-!
# The host's disk

A disk is a forest whose leaves are files and symbolic links, together with a working directory.
Paths are looked up the host's way: field by field from the root or the working directory, links
followed as they are met (at most forty on one path), `..` meaning the real directory above, and a
slash at the end asking for a directory.  Calls that make or remove an entry look up its directory
and never follow a link in last place.

The operations of the store on a disk are built from these calls.  They report a refusal together
with the path as it was given.
-/

namespace Arboretum

/-- What a leaf of a disk holds. -/
inductive DiskLeaf where
  | file (data : ByteArray)
  | link (target : String)

/-- A disk: everything below its root, and the names on the way to the working directory. -/
structure Disk where
  root : Forest DiskLeaf
  cwd : List String

namespace Disk

/-! ## 1. Following a path -/

/-- Where following a path ends. -/
inductive Found where
  /-- a directory, by the real names on the way to it -/
  | directory (names : List String)
  /-- a file in a directory -/
  | file (above : List String) (name : String) (data : ByteArray)
  /-- an empty place in a directory -/
  | nothing (above : List String) (name : String)

/-- The longest path that the host takes, in bytes, is one below this. -/
def pathLimit : Nat := 4096

/-- The longest name that the host takes, in bytes. -/
def nameLimit : Nat := 255

/-- How many links one path may lead through. -/
def linkLimit : Nat := 40

/-- The fields of a path. -/
def fieldsOf (path : String) : List String := (Path.fields path.toList).map String.ofList

/-- The directory that a path starts from. -/
def start (origin : List String) (path : String) : List String :=
  if path.toList.head? = some '/' then [] else origin

/-- One pass over the fields of a path from a real directory on; `onLink` goes on when a link is
met, from the directory that holds it, over the fields of its target and those not yet passed.  A
path followed for `saving` must not end in a slash, and neither must the last link's target. -/
def pass (d : Disk) (saving : Bool)
    (onLink : List String → List String → Except HostRefusal Found) :
    (here : List String) → List String → Except HostRefusal Found
  | here, [] => .ok (.directory here)
  | here, field :: rest =>
    if field = "" ∨ field = "." then d.pass saving onLink here rest
    else if field = ".." then d.pass saving onLink here.dropLast rest
    else if saving && !rest.isEmpty && rest.all (· = "") then .error .isDirectory
    else if nameLimit < field.utf8ByteSize then .error .nameTooLong
    else
      match d.root.at? (here ++ [field]) with
      | some (.folder _) => d.pass saving onLink (here ++ [field]) rest
      | some (.leaf (.file data)) =>
        if rest.isEmpty then .ok (.file here field data) else .error .notDirectory
      | some (.leaf (.link target)) => onLink (start here target) (fieldsOf target ++ rest)
      | none =>
        if rest.all (· = "") then .ok (.nothing here field) else .error .noEntry

/-- Following fields through at most `links` links. -/
def follow (d : Disk) (saving : Bool) :
    (links : Nat) → List String → List String → Except HostRefusal Found
  | 0 => d.pass saving fun _ _ => .error .linkLoop
  | links + 1 => d.pass saving (d.follow saving links)

/-- Where a path leads, for saving a file there or for anything else. -/
def trace (d : Disk) (saving : Bool) (path : String) : Except HostRefusal Found :=
  if path = "" then .error .noEntry
  else if pathLimit ≤ path.utf8ByteSize then .error .nameTooLong
  else d.follow saving linkLimit (start d.cwd path) (fieldsOf path)

/-- **Where a path leads**, links followed to the end. -/
def locate (d : Disk) (path : String) : Except HostRefusal Found := d.trace false path

/-! ## 2. The last name of a path -/

/-- The last field of a path, slashes at its end aside. -/
inductive Last where
  /-- the path names the root -/
  | root
  /-- the path ends in `.` -/
  | here
  /-- the path ends in `..` -/
  | above
  /-- a name, with slashes behind it or not -/
  | name (name : String) (slashed : Bool)

/-- The fields before the last name, and that name. -/
def lastOf (path : String) : List String × Last :=
  let slashed := path.toList.getLast? = some '/'
  let fields := (fieldsOf path).filter (· ≠ "")
  match fields.getLast? with
  | none => ([], .root)
  | some "." => (fields.dropLast, .here)
  | some ".." => (fields.dropLast, .above)
  | some name => (fields.dropLast, .name name slashed)

/-- **The real directory that holds the last name of a path**, and that name, which is not
followed. -/
def locateHolder (d : Disk) (path : String) : Except HostRefusal (List String × Last) :=
  if path = "" then .error .noEntry
  else if pathLimit ≤ path.utf8ByteSize then .error .nameTooLong
  else
    let (fields, last) := lastOf path
    match d.follow false linkLimit (start d.cwd path) fields with
    | .error refusal => .error refusal
    | .ok (.directory names) =>
      match last with
      | .name name _ =>
        if nameLimit < name.utf8ByteSize then .error .nameTooLong else .ok (names, last)
      | _ => .ok (names, last)
    | .ok (.file ..) => .error .notDirectory
    | .ok (.nothing ..) => .error .noEntry

/-- The path ends in a link that is not followed. -/
def isLink (d : Disk) (path : String) : Bool :=
  match d.locateHolder path with
  | .ok (above, .name name false) =>
    match d.root.at? (above ++ [name]) with
    | some (.leaf (.link _)) => true
    | _ => false
  | _ => false

/-- The path leads to a directory. -/
def isDirectory (d : Disk) (path : String) : Bool :=
  match d.locate path with
  | .ok (.directory _) => true
  | _ => false

/-- The path leads to a file. -/
def isFile (d : Disk) (path : String) : Bool :=
  match d.locate path with
  | .ok (.file ..) => true
  | _ => false

/-- The path leads somewhere. -/
def isPresent (d : Disk) (path : String) : Bool := d.isDirectory path || d.isFile path

/-! ## 3. The host's calls -/

/-- The disk with a leaf under a name of a directory. -/
def putLeaf (d : Disk) (above : List String) (name : String) (leaf : DiskLeaf) : Disk :=
  { d with root := d.root.change (Forest.put name (.leaf leaf)) above }

/-- The disk without a name of a directory. -/
def drop (d : Disk) (above : List String) (name : String) : Disk :=
  { d with root := d.root.change (Forest.erase name) above }

/-- Opening a file for writing and writing it: a missing file is made, also where a link leads. -/
def save (d : Disk) (path : String) (data : ByteArray) : Except HostRefusal Disk :=
  match d.trace true path with
  | .error refusal => .error refusal
  | .ok (.directory _) => .error .isDirectory
  | .ok (.file above name _) => .ok (d.putLeaf above name (.file data))
  | .ok (.nothing above name) => .ok (d.putLeaf above name (.file data))

/-- Making one directory. -/
def makeOne (d : Disk) (path : String) : Except HostRefusal Disk :=
  match d.locateHolder path with
  | .error refusal => .error refusal
  | .ok (above, .name name _) =>
    match d.root.at? (above ++ [name]) with
    | some _ => .error .exists
    | none => .ok { d with root := d.root.change (Forest.put name (.folder .empty)) above }
  | .ok _ => .error .exists

/-- Removing an empty directory. -/
def removeDirectory (d : Disk) (path : String) : Except HostRefusal Disk :=
  match d.locateHolder path with
  | .error refusal => .error refusal
  | .ok (_, .root) => .error .busy
  | .ok (_, .here) => .error .invalid
  | .ok (_, .above) => .error .notEmpty
  | .ok (above, .name name _) =>
    match d.root.at? (above ++ [name]) with
    | none => .error .noEntry
    | some (.leaf _) => .error .notDirectory
    | some (.folder .empty) => .ok (d.drop above name)
    | some (.folder _) => .error .notEmpty

/-- Removing a file or a link. -/
def removeLeaf (d : Disk) (path : String) : Except HostRefusal Disk :=
  match d.locateHolder path with
  | .error refusal => .error refusal
  | .ok (above, .name name slashed) =>
    match d.root.at? (above ++ [name]) with
    | none => .error .noEntry
    | some (.folder _) => .error .isDirectory
    | some (.leaf _) => if slashed then .error .notDirectory else .ok (d.drop above name)
  | .ok _ => .error .isDirectory

/-- Making a symbolic link. -/
def makeLink (d : Disk) (path target : String) : Except HostRefusal Disk :=
  if target = "" then .error .noEntry
  else if pathLimit ≤ target.utf8ByteSize then .error .nameTooLong
  else
    match d.locateHolder path with
    | .error refusal => .error refusal
    | .ok (above, .name name slashed) =>
      match d.root.at? (above ++ [name]) with
      | some _ => .error .exists
      | none => if slashed then .error .noEntry else .ok (d.putLeaf above name (.link target))
    | .ok _ => .error .exists

/-! ## 4. Listing -/

/-- What a directory says about one of its names: a link's kind shows only when it is followed. -/
inductive Offer where
  | known (entry : Entry)
  | link (name : String)

/-- The name on offer. -/
def Offer.name : Offer → String
  | .known entry => entry.name
  | .link name => name

/-- A path with one more name behind it. -/
def below (path name : String) : String :=
  if path.toList.getLast? = some '/' then path ++ name else path ++ "/" ++ name

/-- The path of the store for a path: the empty one is the working directory. -/
def orHere (path : String) : String := if path = "" then "." else path

/-- The names of a directory that pass the hints, in name order. -/
def offers (d : Disk) (path : String) (hints : List String) : Except Fault (List Offer) :=
  let path := orHere path
  match d.locate path with
  | .error refusal => .error (.host refusal path)
  | .ok (.file ..) => .error (.host .notDirectory path)
  | .ok (.nothing ..) => .error (.host .noEntry path)
  | .ok (.directory names) =>
    match d.root.at? names with
    | some (.folder inside) =>
      .ok ((inside.toList.map fun
        | (name, .folder _) => Offer.known ⟨name, true⟩
        | (name, .leaf (.file _)) => Offer.known ⟨name, false⟩
        | (name, .leaf (.link _)) => Offer.link name).filter fun offer =>
          Pattern.Shell.passes hints offer.name)
    | _ => .ok []

/-- The entry that an offer turns out to be: a link counts as what it leads to, as a file where
that is missing, and is passed over where following it is refused. -/
def settle (d : Disk) (path : String) : Offer → Option Entry
  | .known entry => some entry
  | .link name =>
    match d.locate (below (orHere path) name) with
    | .ok (.directory _) => some ⟨name, true⟩
    | .ok _ | .error .noEntry => some ⟨name, false⟩
    | .error _ => none

/-- **Listing**: the entries in name order that pass the hints. -/
def list (d : Disk) (path : String) (hints : List String) : Except Fault (List Entry) :=
  match d.offers path hints with
  | .error f => .error f
  | .ok offers => .ok (offers.filterMap (d.settle path))

/-! ## 5. The other operations of the store -/

/-- **Stat**: what is known about the place that a path leads to. -/
def stat (d : Disk) (path : String) : Except Fault (Option Info) :=
  match d.locate (orHere path) with
  | .ok (.directory _) => .ok (some ⟨path, Path.hostName path, true, none, true⟩)
  | .ok (.file _ _ data) => .ok (some ⟨path, Path.hostName path, false, some data.size, true⟩)
  | .ok (.nothing ..) | .error .noEntry | .error .notDirectory => .ok none
  | .error refusal => .error (.host refusal (orHere path))

/-- **Reading** a file. -/
def read (d : Disk) (path : String) : Except Fault ByteArray :=
  match d.locate path with
  | .error refusal => .error (.host refusal path)
  | .ok (.directory _) => .error (.host .isDirectory path)
  | .ok (.nothing ..) => .error (.host .noEntry path)
  | .ok (.file _ _ data) => .ok data

/-- A refusal as a fault of the store. -/
def faulting (path : String) : Except HostRefusal Disk → Except Fault Disk
  | .ok d => .ok d
  | .error refusal => .error (.host refusal path)

/-- **Writing** a file. -/
def write (d : Disk) (path : String) (data : ByteArray) : Except Fault Disk :=
  faulting path (d.save path data)

/-- A path cut before its last name: what stands before it, and the name.  A slash at the end is
passed over once. -/
def cutLast (path : String) : String × String :=
  let cs := path.toList
  match Path.lastField cs with
  | [] =>
    let front := Path.beforeLast cs
    (String.ofList (Path.beforeLast front), String.ofList (Path.lastField front))
  | last => (String.ofList (Path.beforeLast cs), String.ofList last)

/-- Making a directory and those above it that are missing; `depth` bounds their number.  A
directory that is there already is no refusal at any level, and a `.` at the end asks for nothing
once the levels above it are made. -/
def makeAll : (depth : Nat) → String → Disk → Changed Disk
  | 0, path, d => makeLast path d
  | depth + 1, path, d =>
    let (above, last) := cutLast path
    if above ≠ "" ∧ last ≠ "" ∧ !d.isPresent above then
      match makeAll depth above d with
      | (.error (.host .exists _), made) | (.ok _, made) =>
        if last = "." then (.ok (), made) else makeLast path made
      | failed => failed
    else makeLast path d
where
  /-- The last level. -/
  makeLast (path : String) (d : Disk) : Changed Disk :=
    match d.makeOne path with
    | .ok made => (.ok (), made)
    | .error refusal =>
      if d.isDirectory path then (.ok (), d) else (.error (.host refusal path), d)

/-- **Making a directory**, on request with its missing parents. -/
def makeDir (d : Disk) (path : String) (parents : Bool) : Changed Disk :=
  if parents then makeAll path.length path d else .whole d (faulting path (d.makeOne path))

/-- **Removing** an empty directory, a file or a link. -/
def remove (d : Disk) (path : String) : Except Fault Disk :=
  faulting path
    (if d.isDirectory path && !d.isLink path then d.removeDirectory path else d.removeLeaf path)

end Disk

end Arboretum
