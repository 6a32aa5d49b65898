import Arboretum.Listing

/-!
# Walking

A walk hands out every entry below a directory, each directory before what it holds, and the
entries of one directory in listing order, all of them before the first of its directories is
entered.  Patterns and the wish to leave out directories only decide what is handed out, never
where the walk goes.  Whether an entry is a directory is looked up afresh when its turn comes.
-/

namespace Arboretum.Walk

/-- What a walk hands out: the handle of an entry, and the entry. -/
abbrev Visit := Handle × Entry

/-- The settings of a walk: the registry that handles are bound to, its home store, the store that
is walked, the name patterns, and whether directories are handed out. -/
structure Settings where
  registry : Nat
  home : Store
  store : Store
  segments : List Pattern.Segment
  directories : Bool
deriving DecidableEq, Repr

/-- The handle of a path of the walked store. -/
def Settings.handle (settings : Settings) (path : String) : Handle :=
  ⟨if settings.store = settings.home then path else settings.store.mount ++ path,
    some settings.registry⟩

/-- The walk hands out an entry. -/
def Settings.wants (settings : Settings) (entry : Entry) : Bool :=
  (settings.directories || !entry.isDirectory) && Pattern.passes settings.segments entry.name

/-! ## 1. One directory -/

/-- **Handing out the entries of a directory**; the result is the path of each of them. -/
def visitDirectory (settings : Settings) (path : String) : Traversal Visit (List String) := do
  let entries ← Listing.all settings.store path []
  Traversal.forEachCollect
    (fun entry : Entry => do
      Traversal.checked
      let below ← Traversal.call settings.store path (.join [path, entry.name])
      if settings.wants entry then Traversal.give (settings.handle below, entry)
      return below)
    entries

/-! ## 2. The agenda -/

/-- **Working off a list of paths**: a directory is handed out and its entries come next, in front
of the paths that were there; all else is passed over.  Each path costs one unit of the budget. -/
def workOff (settings : Settings) : (budget : Nat) → List String → Traversal Visit Unit
  | _, [] => .done ()
  | 0, _ :: _ => .spent
  | budget + 1, path :: later => do
    Traversal.checked
    match ← Traversal.call settings.store path (.stat path) with
    | some info =>
      if info.isDirectory then
        let entries ← visitDirectory settings path
        workOff settings budget (entries ++ later)
      else workOff settings budget later
    | none => workOff settings budget later

/-! ## 3. Walks -/

/-- **The run of a walk** for a base that is bound to a registry already. -/
def run (budget : Nat) (registry : Nat) (base : Handle) (segments : List Pattern.Segment)
    (directories : Bool) : Traversal Visit Unit := do
  Traversal.checked
  let (s, path) ← base.resolve
  match ← Traversal.call s path (.stat path) with
  | none => .fail (.baseMissing base.uri)
  | some info =>
    if !info.isDirectory then .fail (.directoryExpected base.uri)
    else
      let g ← Traversal.registry registry
      let settings : Settings := ⟨registry, g.home, s, segments, directories⟩
      Traversal.checked
      let entries ← visitDirectory settings path
      workOff settings budget entries

/-- What comes before the first step of a walk: the patterns are read, the base bound. -/
def prepare {Out : Type} (base : Base) (patterns : List String) (registry : Option Nat) :
    Traversal Out (Handle × Nat × List Pattern.Segment) := do
  let segments ← Traversal.ofExcept (Listing.readNames patterns)
  let (h, number) ← base.bind registry
  return (h, number, segments)

end Arboretum.Walk
