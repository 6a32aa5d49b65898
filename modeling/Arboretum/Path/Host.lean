import Arboretum.Path.Lexical

/-!
# Host paths

Paths on the host's disk may be relative, and blanks in them count.  `hostJoin` puts parts
together as the host does: empty parts say nothing, a rooted part starts afresh, and the result is
in normal form with at most one leading slash.  A first part written with the host's own address
text `file://` loses it.  No parts at all give the empty path, which stands for the working
directory.
-/

namespace Arboretum.Path

/-! ## 1. The address text -/

/-- The text in front of an address on the host's disk. -/
def hostMount : String := "file://"

/-- `text` without `head` in front of it, if it starts so. -/
def after? : (head text : List Char) → Option (List Char)
  | [], text => some text
  | _ :: _, [] => none
  | h :: head, c :: text => if h = c then after? head text else none

/-- What follows a given start is exactly the rest of the text. -/
theorem after?_eq_some_iff {head text rest : List Char} :
    after? head text = some rest ↔ text = head ++ rest := by
  induction head generalizing text with
  | nil => simp [after?, eq_comm]
  | cons h head ih =>
    cases text with
    | nil => simp [after?]
    | cons c text =>
      by_cases hc : h = c
      · simp [after?, hc, ih]
      · simp [after?, hc, Ne.symm hc]

/-- The first part without the host's address text; nothing after it means the root. -/
def withoutMount (part : List Char) : List Char :=
  match after? hostMount.toList part with
  | some [] => ['/']
  | some rest => rest
  | none => part

/-! ## 2. Joining -/

/-- The characters of several host parts put together. -/
def hostJoinChars (parts : List (List Char)) : List Char :=
  match parts.filter (· ≠ []) with
  | [] => []
  | first :: others => singleSlash (normal (others.foldl append (withoutMount first)))

/-- **Host parts put together** and brought to normal form. -/
def hostJoin (parts : List String) : String := String.ofList (hostJoinChars (parts.map String.toList))

/-- The name by which a host path is shown: what follows its last slash, slashes at its end aside;
a path of slashes alone is shown as it is. -/
def hostName (path : String) : String :=
  match lastField (trimSlashes path.toList) with
  | [] => path
  | text => String.ofList text

end Arboretum.Path
