import Arboretum.Pattern.Item

/-!
# Name patterns as a table of rows reads them

A table narrows a listing by a `LIKE` text: `%` stands for any stretch, `_` for any one character,
a backslash takes the next character as it is, and letters of ASCII count alike in both cases.
Name patterns without classes and escapes have such a text.
-/

namespace Arboretum.Pattern.Like

/-! ## 1. The text of a pattern -/

/-- The `LIKE` text of one character of a name pattern. -/
def textOfChar (c : Char) : List Char :=
  if c = '*' then ['%']
  else if c = '?' then ['_']
  else if c = '%' ∨ c = '_' then ['\\', c]
  else [c]

/-- **The `LIKE` text of a name pattern**, if it has neither class nor escape. -/
def textOf? (pattern : String) : Option String :=
  let cs := pattern.toList
  if '[' ∈ cs ∨ '\\' ∈ cs then none else some (String.ofList (cs.flatMap textOfChar))

/-! ## 2. Matching -/

/-- The lower-case letter of an upper-case letter of ASCII; all else stays. -/
def foldCase (c : Char) : Char := c.toLower

/-- **A `LIKE` text covers a text**; a backslash at its end covers nothing. -/
def coversChars : List Char → List Char → Bool
  | [], [] => true
  | [], _ :: _ => false
  | '%' :: like, cs => (tails cs).any (coversChars like)
  | '\\' :: d :: like, c :: cs => foldCase d == foldCase c && coversChars like cs
  | '\\' :: _, _ => false
  | '_' :: like, _ :: cs => coversChars like cs
  | d :: like, c :: cs => foldCase d == foldCase c && coversChars like cs
  | _ :: _, [] => false

/-- A `LIKE` text covers a name. -/
def covers (like name : String) : Bool := coversChars like.toList name.toList

/-- The filter of a list of hints: the `LIKE` texts of all of them, or no filter when one of them
has none (or when there are no hints). -/
def filter? (hints : List String) : Option (List String) :=
  if hints.isEmpty then none else hints.mapM textOf?

/-- A name passes a list of hints: some `LIKE` text covers it, or there is no filter. -/
def passes (hints : List String) (name : String) : Bool :=
  match filter? hints with
  | none => true
  | some likes => likes.any (covers · name)

end Arboretum.Pattern.Like
