import Arboretum.Handle
import Arboretum.Pattern.Segment

/-!
# Listing a directory

A listing offers the entries of a directory to a visitor, one after the other, until the visitor
has seen enough.  `Listing.bounded` keeps the entries whose names pass a list of name patterns, up
to a number; the patterns are given to the store as hints when every one of them has a hint, and
every name is looked at again.
-/

namespace Arboretum.Listing

variable {Out σ : Type}

/-! ## 1. Visitors -/

/-- **Offering entries in turn**, until the visitor says that it has seen enough. -/
def offer (visit : σ → Entry → σ × Bool) : List Entry → σ → σ
  | [], seen => seen
  | entry :: entries, seen =>
    match visit seen entry with
    | (seen, true) => offer visit entries seen
    | (seen, false) => seen

/-- The visitor that keeps the entries whose names pass, latest first, and goes on while fewer
than `bound` are kept; a negative bound is none. -/
def keep (bound : Int) (segments : List Pattern.Segment) (kept : List Entry) (entry : Entry) :
    List Entry × Bool :=
  let kept := if Pattern.passes segments entry.name then entry :: kept else kept
  (kept, bound < 0 || (kept.length : Int) < bound)

/-! ## 2. Patterns -/

/-- The name patterns of a list of texts, or the first fault. -/
def readNames : List String → Except Fault (List Pattern.Segment)
  | [] => .ok []
  | text :: texts =>
    match Pattern.Segment.readName text with
    | .error flaw => .error (.invalidPattern text flaw)
    | .ok segment =>
      match readNames texts with
      | .error f => .error f
      | .ok segments => .ok (segment :: segments)

/-- **The hints for a listing**: those of all patterns, or none when one of them has none. -/
def hints (segments : List Pattern.Segment) : List String :=
  (segments.mapM Pattern.Segment.hint?).getD []

/-! ## 3. Listings -/

/-- All entries of a directory, unless the run is cancelled meanwhile. -/
def all (s : Store) (path : String) (hints : List String) : Traversal Out (List Entry) := do
  let entries ← Traversal.call s path (.list path hints)
  Traversal.checked
  return entries

/-- **At most `bound` entries of a handle's directory whose names pass**; a negative bound means
all of them, and nothing is listed for the bound zero. -/
def bounded (h : Handle) (bound : Int) (patterns : List String) : Traversal Out (List Entry) := do
  let segments ← Traversal.ofExcept (readNames patterns)
  let (s, path) ← h.resolve
  if bound = 0 then return []
  else
    let entries ← Traversal.call s path (.list path (hints segments))
    Traversal.checked
    return (offer (keep bound segments) entries []).reverse

/-- All entries of a handle's directory whose names pass, by name. -/
def sorted (h : Handle) (patterns : List String) : Traversal Out (List Entry) := do
  let entries ← bounded h (-1) patterns
  return entries.mergeSort fun a b => decide (a.name ≤ b.name)

end Arboretum.Listing
