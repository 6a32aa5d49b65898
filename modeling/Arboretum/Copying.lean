import Arboretum.Listing

/-!
# Copying trees

A file is read whole and written whole; a directory is made with its parents, and then its entries
are copied in turn.  Source and destination may belong to different stores.  Copying below the
source itself does not end of its own accord, so the depth is bounded by a budget.
-/

namespace Arboretum.Copying

variable {Out : Type}

/-- **Copying the place of a handle** to another, with everything below it, at most `depth` levels
deep. -/
def copyAll : (depth : Nat) → Handle → Handle → Traversal Out Unit
  | 0, _, _ => .spent
  | depth + 1, source, target => do
    let (s, path) ← source.resolve
    let (t, place) ← target.resolve
    Handle.require s .read
    Handle.require t .write
    match ← Traversal.call s path (.stat path) with
    | none => .fail (.placeMissing source.uri)
    | some info =>
      if info.isDirectory then
        Handle.require t .makeDir
        Traversal.call t place (.makeDir place true)
        let entries ← Listing.bounded source (-1) []
        Traversal.forEach
          (fun entry : Entry => do
            let below ← source.join [entry.name]
            let under ← target.join [entry.name]
            copyAll depth below under)
          entries
      else
        let data ← Traversal.call s path (.read path)
        Traversal.call t place (.write place data)

end Arboretum.Copying
