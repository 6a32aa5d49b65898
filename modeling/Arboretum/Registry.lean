import Arboretum.Address
import Arboretum.Store.Identity

/-!
# Which store an address belongs to

A registry knows the stores by their mounts.  An address without a scheme belongs to the **home**
store, one with a scheme to the store whose mount is the longest text in front of it that ends at
a boundary, and every other address (the empty one too) to the void store.
-/

namespace Arboretum

/-- A registry: the home store, the void store, and the stores by mount, oldest mount first. -/
structure Registry where
  home : Store
  void : Store
  mounts : List (String × Store)
deriving DecidableEq, Repr

namespace Registry

/-! ## 1. Making and changing -/

/-- A registry that knows its home store only. -/
def fresh (home void : Store) : Registry := ⟨home, void, [(home.mount, home)]⟩

/-- The mounts with one given to a store, in place of an older owner. -/
def give (s : Store) : List (String × Store) → List (String × Store)
  | [] => [(s.mount, s)]
  | (mount, owner) :: rest =>
    if mount = s.mount then (mount, s) :: rest else (mount, owner) :: give s rest

/-- **Registering** a store under its mount. -/
def register (g : Registry) (s : Store) : Registry := { g with mounts := give s g.mounts }

/-- The store registered under exactly a mount. -/
def get? (g : Registry) (mount : String) : Option Store := (g.mounts.find? (·.1 = mount)).map (·.2)

/-- **Unregistering** a store, if it still owns its mount. -/
def unregister (g : Registry) (s : Store) : Registry :=
  if g.get? s.mount = some s then { g with mounts := g.mounts.filter (·.1 ≠ s.mount) } else g

/-- All stores with their mounts, by mount. -/
def stores (g : Registry) : List (String × Store) :=
  g.mounts.mergeSort fun a b => decide (a.1 ≤ b.1)

/-! ## 2. Routing -/

/-- What an address says behind a mount that owns it: the mount stands in front, and it ends at a
boundary: nothing or a slash follows, or the mount itself ends in a slash or a colon. -/
def behind? (mount uri : String) : Option String :=
  match Path.after? mount.toList uri.toList with
  | none => none
  | some rest =>
    if rest = [] ∨ rest.head? = some '/' ∨ mount.toList.getLast? = some '/'
        ∨ mount.toList.getLast? = some ':' then
      some (String.ofList rest)
    else none

/-- The longer of two finds by mount; of equally long mounts the first. -/
def longer : Option (String × Store × String) → Option (String × Store × String) →
    Option (String × Store × String)
  | none, found => found
  | found, none => found
  | some a, some b => if a.1.length < b.1.length then some b else some a

/-- **The owner of an address by the longest mount**, and what the address says behind it. -/
def find? (g : Registry) (uri : String) : Option (Store × String) :=
  (g.mounts.foldl
    (fun best (mount, s) => longer best ((behind? mount uri).map fun rest => (mount, s, rest)))
    none).map fun (_, s, rest) => (s, rest)

/-- The store that an address belongs to. -/
def owner (g : Registry) (uri : String) : Store :=
  if uri = "" then g.void
  else if !Address.hasScheme uri then g.home
  else (g.find? uri).elim g.void (·.1)

/-- **Where an address leads**: its store, and the parts that the store has to join to get the
path; an address of the void store has no path. -/
def route (g : Registry) (uri : String) : Store × Option (List String) :=
  if uri = "" then (g.void, none)
  else if !Address.hasScheme uri then (g.home, some [uri])
  else
    match g.find? uri with
    | none => (g.void, none)
    | some (s, rest) => (s, some [if s = g.home ∧ rest = "" then "/" else rest])

/-- **The address of a path** of a store: the home store's paths stand for themselves. -/
def address (g : Registry) (s : Store) (path : String) : String :=
  if s = g.home then path else s.mount ++ path

end Registry

end Arboretum
