import Arboretum.Listing
import Arboretum.Pattern.Basic

/-!
# Globbing

Globbing hands out the places that a path pattern matches, each with the names that its wild
segments matched.  A pattern with a root of its own starts there, any other at a base directory; a
slash in front only counts as a root when the base is not valid.  From the start the pattern is
expanded depth first: a literal segment asks for the place of that name, a wild segment lists the
directory and goes on below each entry that matches, in listing order.  Places that are not
directories end the way early, unless nothing more is asked of them.
-/

namespace Arboretum

/-- A place found by globbing, and the names that the wild segments matched on the way. -/
structure Match where
  handle : Handle
  captures : List String
deriving DecidableEq, Repr

namespace Glob

/-! ## 1. Candidates -/

/-- A place on the way: its store, its path and the captures so far. -/
structure Candidate where
  store : Store
  path : String
  captures : List String
deriving DecidableEq, Repr

/-- The settings of a run: the registry that handles are bound to, its home store, whether hints
are given, and whether only directories count at the end. -/
structure Settings where
  registry : Nat
  home : Store
  hinting : Bool
  directoriesOnly : Bool
deriving DecidableEq, Repr

/-- The handle of a candidate. -/
def Settings.handle (settings : Settings) (c : Candidate) : Handle :=
  ⟨if c.store = settings.home then c.path else c.store.mount ++ c.path, some settings.registry⟩

/-! ## 2. Expansion -/

/-- The end of the way: a match is handed out, after a last look where directories are asked
for. -/
def settle (settings : Settings) (c : Candidate) : Traversal Match Unit := do
  if settings.directoriesOnly then
    match ← Traversal.call c.store c.path (.stat c.path) with
    | some info => if info.isDirectory then hand
    | none => return
  else hand
where
  /-- Handing out the candidate. -/
  hand : Traversal Match Unit := do
    Traversal.checked
    Traversal.give ⟨settings.handle c, c.captures⟩

/-- The hints of a wild segment. -/
def hintsOf (settings : Settings) (segment : Pattern.Segment) : List String :=
  if settings.hinting then segment.hint?.toList.filter (· ≠ "") else []

/-- **Expanding** the rest of a pattern below a candidate. -/
def expand (settings : Settings) : List Pattern.Segment → Candidate → Traversal Match Unit
  | [], c => settle settings c
  | segment :: rest, c =>
    match segment.literal? with
    | some name => do
      Traversal.checked
      if name = Pattern.climbing then return
      else
        let path ← Traversal.call c.store c.path (.join [c.path, name])
        match ← Traversal.call c.store path (.stat path) with
        | none => return
        | some info =>
          if !rest.isEmpty && !info.isDirectory then return
          else expand settings rest { c with path }
    | none => do
      let entries ← Listing.all c.store c.path (hintsOf settings segment)
      Traversal.forEach
        (fun entry : Entry =>
          if segment.covers entry.name && (rest.isEmpty || entry.isDirectory) then do
            let path ← Traversal.call c.store c.path (.join [c.path, entry.name])
            expand settings rest { c with path, captures := c.captures ++ [entry.name] }
          else return)
        entries

/-! ## 3. Starts -/

/-- The pattern starts from its own root.  A lone slash is a root only under a base that is not
valid. -/
def isRooted (base : Handle) (p : Pattern) : Traversal Match Bool :=
  if p.root = some "/" then do return !(← base.isValid) else return p.isRooted

/-- Starting below the base, which must be a directory. -/
def fromBase (settings : Settings) (base : Handle) (p : Pattern) : Traversal Match Unit := do
  let (s, path) ← base.resolve
  match ← Traversal.call s path (.stat path) with
  | some info => if info.isDirectory then expand settings p.segments ⟨s, path, []⟩
  | none => return

/-- Starting at the root of the pattern, with the names up to its first wild or climbing segment
taken in one step. -/
def fromRoot (settings : Settings) (g : Registry) (p : Pattern) : Traversal Match Unit := do
  let head := p.literalHead
  let (s, path) ← g.resolve (p.root.getD "" ++ "/".intercalate head)
  if s = g.void then return
  else
    match ← Traversal.call s path (.stat path) with
    | none => return
    | some info =>
      if head.length < p.segments.length && !info.isDirectory then return
      else expand settings (p.segments.drop head.length) ⟨s, path, []⟩

/-- **The run of a glob** for a base that is bound to a registry already. -/
def run (registry : Nat) (hinting : Bool) (base : Handle) (p : Pattern) :
    Traversal Match Unit := do
  Traversal.checked
  let g ← Traversal.registry registry
  let settings : Settings := ⟨registry, g.home, hinting, p.directoriesOnly⟩
  if ← isRooted base p then fromRoot settings g p
  else if p.segments.isEmpty then Traversal.give ⟨base, []⟩
  else fromBase settings base p

/-- What comes before the first step of a glob: the pattern is read, the base bound. -/
def prepare {Out : Type} (base : Base) (pattern : String) (registry : Option Nat) :
    Traversal Out (Handle × Nat × Pattern) := do
  match Pattern.read pattern with
  | .error flaw => .fail (.invalidPattern pattern flaw)
  | .ok p =>
    let (h, number) ← base.bind registry
    return (h, number, p)

end Glob

end Arboretum
