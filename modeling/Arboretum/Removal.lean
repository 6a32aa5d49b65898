import Arboretum.Walk

/-!
# Removing trees

Removing a directory with everything below it walks it first and then removes what the walk has
handed out, the last first, so that every entry goes before the directory that holds it.  Each
entry is addressed through its handle again.
-/

namespace Arboretum.Removal

variable {Out : Type}

/-- Removing one place through a store: the path comes from the handle, the store is given. -/
def removeThrough (s : Store) (h : Handle) : Traversal Out Unit := do
  let (_, path) ← h.resolve
  Traversal.call s path (.remove path)

/-- **Removing the place of a handle with everything below it.** -/
def removeAll (budget : Nat) (h : Handle) : Traversal Out Unit := do
  let (s, path) ← h.resolve
  Handle.require s .remove
  match ← Traversal.call s path (.stat path) with
  | none => .fail (.placeMissing h.uri)
  | some info =>
    if info.isDirectory then
      let (found, _) ← Traversal.gather [] (Walk.run budget h.registryNumber h [] true)
      Traversal.forEach (fun visit : Walk.Visit => removeThrough s visit.1) found
    Traversal.call s path (.remove path)

/-- **Removing the entries of a handle's directory whose names pass**, with everything below
them. -/
def removeEntries (budget : Nat) (h : Handle) (patterns : List String) : Traversal Out Unit := do
  let entries ← Listing.bounded h (-1) patterns
  Traversal.forEach
    (fun entry : Entry => do
      let place ← h.join [entry.name]
      removeAll budget place)
    entries

end Arboretum.Removal
