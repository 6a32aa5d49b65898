/-!
# Paths as texts

Both address worlds, the virtual one and the host's, read a path as fields between slashes.  This
file fixes the rules that they share: appending one path to another, cutting off the last field,
and the **normal form**, in which no field is empty or `.`, a `..` stands only where it cannot be
resolved (at the start of a relative path), and a leading double slash is kept while three or more
slashes count as one.  All rules are lexical: nothing is looked up.
-/

namespace Arboretum.Path

/-! ## 1. Fields -/

/-- The field that names the place itself. -/
def here : List Char := ['.']

/-- The field that names the place above. -/
def above : List Char := ['.', '.']

/-- The fields of a path between its slashes; the empty text has one empty field. -/
def fields (cs : List Char) : List (List Char) := cs.splitOn '/'

/-- Fields written with slashes between them. -/
def unfields (fs : List (List Char)) : List Char := ['/'].intercalate fs

/-- A path is made up of its fields. -/
theorem unfields_fields (cs : List Char) : unfields (fields cs) = cs := List.intercalate_splitOn '/'

/-- Fields without slashes are read back from their path. -/
theorem fields_unfields {fs : List (List Char)} (hne : fs ≠ []) (h : ∀ f ∈ fs, '/' ∉ f) :
    fields (unfields fs) = fs := List.splitOn_intercalate '/' h hne

/-- How many slashes the normal form of a path starts with: two are kept, more count as one. -/
def leadingSlashes : List Char → Nat
  | '/' :: '/' :: '/' :: _ => 1
  | '/' :: '/' :: _ => 2
  | '/' :: _ => 1
  | _ => 0

/-! ## 2. The normal form -/

/-- Reading one field onto the stack of fields kept so far (last one first).  Empty fields and `.`
change nothing; `..` takes back a field, is kept where a relative path has none to take back, and
is dropped at the root. -/
def push (rooted : Bool) (stack : List (List Char)) (field : List Char) : List (List Char) :=
  if field = [] ∨ field = here then stack
  else if field = above then
    match stack with
    | [] => if rooted then [] else [above]
    | top :: below => if top = above then above :: stack else below
  else field :: stack

/-- The fields that remain, in reading order. -/
def reduce (rooted : Bool) (fs : List (List Char)) : List (List Char) :=
  (fs.foldl (push rooted) []).reverse

/-- **The normal form** of a path; nothing left over is written `.`. -/
def normal (cs : List Char) : List Char :=
  let slashes := leadingSlashes cs
  match List.replicate slashes '/' ++ unfields (reduce (slashes != 0) (fields cs)) with
  | [] => here
  | text => text

/-- A path that starts with several slashes, with one of them. -/
def singleSlash : List Char → List Char
  | '/' :: '/' :: rest => '/' :: rest.dropWhile (· == '/')
  | cs => cs

/-! ## 3. Appending and cutting -/

/-- One path after another: a rooted second path replaces the first. -/
def append (path part : List Char) : List Char :=
  if part.head? = some '/' then part
  else if path = [] ∨ path.getLast? = some '/' then path ++ part
  else path ++ '/' :: part

/-- The text without its trailing slashes. -/
def trimSlashes (cs : List Char) : List Char := (cs.reverse.dropWhile (· == '/')).reverse

/-- What follows the last slash. -/
def lastField (cs : List Char) : List Char := (cs.reverse.takeWhile (· != '/')).reverse

/-- What stands before the last field: without the slashes at its end, unless it has no other
character. -/
def beforeLast (cs : List Char) : List Char :=
  let front := (cs.reverse.dropWhile (· != '/')).reverse
  match trimSlashes front with
  | [] => front
  | text => text

end Arboretum.Path
