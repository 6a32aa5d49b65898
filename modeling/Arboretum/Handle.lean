import Arboretum.Path.Virtual
import Arboretum.Traversal.Basic

/-!
# Handles

A handle names a place by its **canonical** address: the address of the clean path that it
resolves to.  It may be bound to a registry; without one it goes by the common registry.  Making a
handle and resolving one asks the store to join the path; equality of handles is equality of
addresses.
-/

namespace Arboretum

/-- The number of the common registry. -/
def commonRegistry : Nat := 0

/-- A handle: an address, and the number of the registry that it is bound to. -/
structure Handle where
  uri : String
  registry : Option Nat
deriving DecidableEq, Repr

variable {Out : Type}

/-! ## 1. Resolving -/

/-- **The store and the clean path** of an address in a registry. -/
def Registry.resolve (g : Registry) (uri : String) : Traversal Out (Store × String) :=
  match g.route uri with
  | (s, none) => .done (s, "")
  | (s, some parts) => do
    let path ← Traversal.plain s (.join parts)
    return (s, path)

/-- **The canonical form** of an address; an address of the void store is kept as it is. -/
def Registry.canonical (g : Registry) (uri : String) : Traversal Out String := do
  let (s, path) ← g.resolve uri
  return if s = g.void then uri else g.address s path

namespace Handle

/-- The number of the registry that a handle goes by. -/
def registryNumber (h : Handle) : Nat := h.registry.getD commonRegistry

/-- **The handle of an address**; the empty address is kept as it is. -/
def ofAddress (uri : String) (registry : Option Nat) : Traversal Out Handle :=
  if uri = "" then return ⟨"", registry⟩
  else do
    let g ← Traversal.registry (registry.getD commonRegistry)
    let uri ← g.canonical uri
    return ⟨uri, registry⟩

/-- The store and the clean path of a handle. -/
def resolve (h : Handle) : Traversal Out (Store × String) := do
  let g ← Traversal.registry h.registryNumber
  g.resolve h.uri

/-- The handle names a place of a store other than the void one. -/
def isValid (h : Handle) : Traversal Out Bool := do
  let g ← Traversal.registry h.registryNumber
  return g.owner h.uri ≠ g.void

/-- The last name of a handle's path. -/
def name (h : Handle) : Traversal Out String := do
  if ← h.isValid then
    let (_, path) ← h.resolve
    return Path.name path
  else return ""

/-! ## 2. Moving -/

/-- The handle of a clean path of a store, by the same registry. -/
def onStore (h : Handle) (s : Store) (path : String) : Traversal Out Handle := do
  let g ← Traversal.registry h.registryNumber
  return ⟨g.address s path, h.registry⟩

/-- **Joining** parts onto a handle by the rules of its store. -/
def join (h : Handle) (parts : List String) : Traversal Out Handle := do
  let (s, path) ← h.resolve
  let joined ← Traversal.plain s (.join (path :: parts))
  h.onStore s joined

/-- The handle of the directory above. -/
def parent (h : Handle) : Traversal Out Handle := h.join [".."]

/-- The handle of another address, by the same registry. -/
def withAddress (h : Handle) (uri : String) : Traversal Out Handle := ofAddress uri h.registry

/-! ## 3. Asking -/

/-- Stops unless the store offers an ability. -/
def require (s : Store) (a : Ability) : Traversal Out Unit :=
  if s.offers a then .done () else .fail (.unsupported s.label a)

/-- What is known about the place of a handle. -/
def stat (h : Handle) : Traversal Out (Option Info) := do
  let (s, path) ← h.resolve
  Traversal.plain s (.stat path)

/-- Something stands at the place of a handle. -/
def isPresent (h : Handle) : Traversal Out Bool := do
  return (← h.stat).isSome

/-- A directory stands at the place of a handle. -/
def isDirectory (h : Handle) : Traversal Out Bool := do
  return ((← h.stat).map Info.isDirectory).getD false

/-- The content of the file at a handle. -/
def read (h : Handle) : Traversal Out ByteArray := do
  let (s, path) ← h.resolve
  require s .read
  Traversal.plain s (.read path)

/-- Writing the file at a handle. -/
def write (h : Handle) (data : ByteArray) : Traversal Out Unit := do
  let (s, path) ← h.resolve
  require s .write
  Traversal.plain s (.write path data)

/-- Making the directory at a handle. -/
def makeDir (h : Handle) (parents : Bool) : Traversal Out Unit := do
  let (s, path) ← h.resolve
  require s .makeDir
  Traversal.plain s (.makeDir path parents)

/-- Removing the file or the empty directory at a handle. -/
def remove (h : Handle) : Traversal Out Unit := do
  let (s, path) ← h.resolve
  require s .remove
  Traversal.plain s (.remove path)

end Handle

/-! ## 4. Bases -/

/-- What a run starts from: a plain address or a handle. -/
inductive Base where
  | address (uri : String)
  | handle (h : Handle)
deriving DecidableEq, Repr

/-- **The handle that a base stands for**, and the registry of the run: the one asked for, else
the handle's own.  A handle bound elsewhere is made anew. -/
def Base.bind (base : Base) (registry : Option Nat) : Traversal Out (Handle × Nat) :=
  match base, registry with
  | .address uri, registry => do
    let number := registry.getD commonRegistry
    return (← Handle.ofAddress uri (some number), number)
  | .handle h, none => return (h, h.registryNumber)
  | .handle h, some number =>
    if h.registry = some number then return (h, number)
    else return (← Handle.ofAddress h.uri (some number), number)

end Arboretum
