import Arboretum.Archive.Shelf
import Arboretum.Archive.Stray
import Arboretum.Store.Disk

/-!
# Collecting files for an archive

The files below a directory of the disk, in the order of their names level by level, each on its
shelf.  Directories are entered, links to directories are not; a link to a file counts as that
file.  Files above a size limit and files that cannot be reached are left out; a directory that
cannot be listed, since the host does not take its path, ends the collecting.

The tree of a disk has texts for names.  Places of the directory with other names come beside it, as
stray ones.
-/

namespace Arboretum.Archive

/-! ## 1. Items -/

/-- A place below the directory of an archive: one of the disk's tree, by its names, or a stray
one. -/
inductive Item where
  | named (names : List String)
  | stray (place : Stray)
deriving DecidableEq, Repr

namespace Item

/-- The names of a place of the tree. -/
def named? : Item → Option (List String)
  | .named names => some names
  | .stray _ => none

/-- The names of an item, shown. -/
def shownNames : Item → List String
  | .named names => names
  | .stray place => place.shownNames

/-- The numbers of the signs, name by name. -/
def numbers : Item → List (List Nat)
  | .named names => names.map fun name => (signsOf name).map Sign.number
  | .stray place => place.names.map fun name => name.map Sign.number

/-- The order of lists by their first different members; a beginning comes before the whole. -/
def precedes {α : Type} [DecidableEq α] (before : α → α → Bool) : List α → List α → Bool
  | [], _ => true
  | _ :: _, [] => false
  | a :: as, b :: bs => if a = b then precedes before as bs else before a b

/-- The order of items: name by name, and sign by sign. -/
def le (a b : Item) : Bool := precedes (precedes Nat.blt) a.numbers b.numbers

/-- Items in order with one more, at its place. -/
def into (item : Item) : List Item → List Item
  | [] => [item]
  | first :: items => if item.le first then item :: first :: items else first :: item.into items

end Item

/-- Places of the tree, which are in order, and stray ones, in one order. -/
def inOrder (places : List (List String)) (strays : List Stray) : List Item :=
  strays.foldr (fun place items => (Item.stray place).into items) (places.map .named)

/-! ## 2. Collected files -/

/-- The largest file that is taken, in bytes. -/
def sizeLimit : Nat := 512 * 1024

/-- The collected files of both shelves. -/
structure Collected where
  code : List Item
  docs : List Item
deriving DecidableEq, Repr

namespace Collected

/-- The files of one shelf. -/
def on (c : Collected) : Shelf → List Item
  | .code => c.code
  | .docs => c.docs

/-- Those among them that are in the tree. -/
def named (c : Collected) (shelf : Shelf) : List (List String) := (c.on shelf).filterMap Item.named?

end Collected

/-! ## 3. Paths -/

/-- A path below a directory, written with the directory's own names in front. -/
def pathBelow (directory : String) (names : List String) : String :=
  Disk.orHere (String.ofList (List.replicate (Path.leadingSlashes directory.toList) '/')
    ++ "/".intercalate (namesOn directory ++ names))

/-- The signs of the path of a stray place below a directory. -/
def signsBelow (directory : String) (place : Stray) : List Sign :=
  List.replicate (Path.leadingSlashes directory.toList) Sign.slash
    ++ [Sign.slash].intercalate ((namesOn directory).map signsOf ++ place.names)

/-! ## 4. Collecting -/

/-- The forest of a directory; where no directory is, there is nothing. -/
def insideOf (d : Disk) (directory : String) : Except Fault (Forest DiskLeaf) :=
  match d.locate (pathBelow directory []) with
  | .ok (.directory names) =>
    match d.root.at? names with
    | some (.folder inside) => .ok inside
    | _ => .ok .empty
  | .error .nameTooLong => .error (.host .nameTooLong (pathBelow directory []))
  | _ => .ok .empty

/-- The names on the way to all directories of a forest, each before those in it. -/
def foldersIn (inside : Forest DiskLeaf) : List (List String) :=
  ((inside.places []).filter (·.2.isNone)).map (·.1)

/-- The names on the way to all leaves of a forest. -/
def leavesIn (inside : Forest DiskLeaf) : List (List String) :=
  ((inside.places []).filter (·.2.isSome)).map (·.1)

/-- Why a directory cannot be listed. -/
def refusal? (d : Disk) (directory : String) : Item → Option Fault
  | .named names =>
    match d.locate (pathBelow directory names) with
    | .error refusal => some (.host refusal (pathBelow directory names))
    | .ok _ => none
  | .stray place =>
    if Disk.pathLimit ≤ bytesOf (signsBelow directory place) then
      some (.foreign "OSError" ("[Errno " ++ toString HostRefusal.nameTooLong.number ++ "] "
        ++ HostRefusal.nameTooLong.text ++ ": " ++ quoteSigns (signsBelow directory place)))
    else none

/-- The item leads to a file that is not too large. -/
def isTaken (d : Disk) (directory : String) : Item → Bool
  | .named names =>
    match d.locate (pathBelow directory names) with
    | .ok (.file _ _ data) => data.size ≤ sizeLimit
    | _ => false
  | .stray place =>
    place.size.any (· ≤ sizeLimit) && bytesOf (signsBelow directory place) < Disk.pathLimit

/-- The items that belong on a shelf. -/
def filed (d : Disk) (directory : String) (items : List Item) (shelf : Shelf) : List Item :=
  items.filter fun item =>
    isTaken d directory item && shelfOf ("/".intercalate item.shownNames) = some shelf

/-- **Collecting** the files below a directory, its stray places among them. -/
def collect (d : Disk) (strays : List Stray) (directory : String) : Except Fault Collected :=
  match insideOf d directory with
  | .error f => .error f
  | .ok inside =>
    let folders := inOrder (foldersIn inside) (strays.filter (·.size.isNone))
    match folders.findSome? (refusal? d directory) with
    | some f => .error f
    | none =>
      let files := inOrder (leavesIn inside) (strays.filter (·.size.isSome))
      .ok ⟨filed d directory files .code, filed d directory files .docs⟩

end Arboretum.Archive
