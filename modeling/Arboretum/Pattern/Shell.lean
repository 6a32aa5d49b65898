import Arboretum.Pattern.Item

/-!
# Name patterns as the shell reads them

Stores that narrow a listing themselves read a hint by the shell's rules.  They know no
escapes.  A class reaches from `[` to the next `]` (one in first place, behind a `!` or not, is a
member); without such an end the bracket is a plain character.  Hyphens cut the inside of a class
into chunks: the first hyphen is looked for behind the first character, each further one three
characters behind the last; around each cut stand the ends of a span.  A span that is reversed is
taken out together with its ends, the last one first.  What is left is empty (nothing matches), a
lone `!` (any character matches), or a class, negated if it starts with `!`.
-/

namespace Arboretum.Pattern.Shell

/-! ## 1. The inside of a class -/

/-- The inside of a class and nothing behind it: what stands between `[` and its `]`, if there is
such an end. -/
def inside? (cs : List Char) : Option (List Char) :=
  let (bang, cs) := match cs with
    | '!' :: rest => (['!'], rest)
    | _ => ([], cs)
  let (bracket, cs) := match cs with
    | ']' :: rest => ([']'], rest)
    | _ => ([], cs)
  if ']' ∈ cs then some (bang ++ bracket ++ cs.takeWhile (· != ']')) else none

/-- The chunks between the hyphens that count; `skip` characters must pass before the next hyphen
may count, and `chunk` holds the characters since the last cut, last one first. -/
def chunksFrom : (skip : Nat) → (chunk : List Char) → List Char → List (List Char)
  | _, chunk, [] => [chunk.reverse]
  | 0, chunk, c :: cs =>
    if c = '-' then chunk.reverse :: chunksFrom 2 [] cs else chunksFrom 0 (c :: chunk) cs
  | skip + 1, chunk, c :: cs => chunksFrom skip (c :: chunk) cs

/-- A hyphen at the very end cuts nothing off: it belongs to the chunk before it. -/
def mendLast : List (List Char) → List (List Char)
  | [chunk, []] => [chunk ++ ['-']]
  | chunk :: chunks => chunk :: mendLast chunks
  | [] => []

/-- The chunks of the inside of a class. -/
def chunks (inside : List Char) : List (List Char) :=
  mendLast (chunksFrom (if inside.head? = some '!' then 2 else 1) [] inside)

/-- Taking out reversed spans, from the last cut to the first. -/
def dropReversed : List (List Char) → List (List Char)
  | [] => []
  | chunk :: chunks =>
    match dropReversed chunks with
    | [] => [chunk]
    | next :: rest =>
      match chunk.getLast?, next.head? with
      | some low, some high =>
        if high.toNat < low.toNat then (chunk.dropLast ++ next.tail) :: rest
        else chunk :: next :: rest
      | _, _ => chunk :: next :: rest

/-- The spans of the chunks: each character by itself, and one span across each cut. -/
def spans : List (List Char) → List Span
  | [] => []
  | [chunk] => chunk.map .single
  | chunk :: next :: rest =>
    match chunk.getLast?, next.head? with
    | some low, some high => chunk.map .single ++ ⟨low, high⟩ :: spans (next :: rest)
    | _, _ => chunk.map .single ++ .single '-' :: spans (next :: rest)

/-- **The item that a class stands for.** -/
def classItem (inside : List Char) : Item :=
  match dropReversed (chunks inside) with
  | ['!'] :: [] => .anyOne
  | ('!' :: chunk) :: rest => .oneOf ⟨.bang, spans (chunk :: rest)⟩
  | kept => .oneOf ⟨.unmarked, spans kept⟩

/-! ## 2. Patterns -/

/-- The items of a text, after `skip` characters that are read already. -/
def itemsFrom : (skip : Nat) → List Char → List Item
  | _, [] => []
  | skip + 1, _ :: cs => itemsFrom skip cs
  | 0, c :: cs =>
    if c = '*' then .anyRun :: itemsFrom 0 cs
    else if c = '?' then .anyOne :: itemsFrom 0 cs
    else if c = '[' then
      match inside? cs with
      | some inside => classItem inside :: itemsFrom (inside.length + 1) cs
      | none => .char '[' :: itemsFrom 0 cs
    else .char c :: itemsFrom 0 cs

/-- **The shell's reading** of a text matches a name. -/
def covers (pattern name : String) : Bool :=
  Pattern.covers (itemsFrom 0 pattern.toList) name.toList

/-- A name passes a list of hints when one of them matches it, or when there are none. -/
def passes (hints : List String) (name : String) : Bool :=
  hints.isEmpty || hints.any (covers · name)

end Arboretum.Pattern.Shell
