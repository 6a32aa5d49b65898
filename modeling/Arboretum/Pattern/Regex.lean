import Arboretum.Pattern.Segment

/-!
# Segments as regular expressions

A wild segment can be handed on to a matcher of regular expressions.  Its **expression** is written
while its text is read, one member of a class at a time, and every character that means something in
a regular expression is written behind a backslash.

The second half of the file reads such texts again: `.`, repetition by `*`, characters, and sets.  The
reader is strict.  It takes a bare character only where nothing else could be meant by it, so what it
refuses are wrong expressions, expressions of other kinds, and sets whose hyphens, brackets, `&`, `~`
or `|` might be operators.  A whole name has to be covered, and `.` covers line breaks too.
-/

namespace Arboretum.Pattern

/-! ## 1. Writing -/

/-- The characters that are written behind a backslash. -/
def special : List Char :=
  ['(', ')', '[', ']', '{', '}', '?', '*', '+', '-', '|', '^', '$', '\\', '.', '&', '~', '#', ' ',
    '\t', '\n', '\r', '\x0b', '\x0c']

/-- A character as an expression for itself. -/
def escaped (c : Char) : List Char := if c ∈ special then ['\\', c] else [c]

/-- **What is written** when a character is read at a place.  The start of a member is held back until
it is known whether a span follows. -/
def Place.writes : Place → Char → List Char
  | .outside, c =>
    if c = '\\' then []
    else if c = '*' then ['.', '*']
    else if c = '?' then ['.']
    else if c = '[' then ['[']
    else escaped c
  | .escape, c => escaped c
  | .opening, c => if c = '!' ∨ c = '^' then ['^'] else []
  | .first _, _ => []
  | .member _, c => if c = ']' then [']'] else []
  | .lowEscape _, _ => []
  | .low _ start, c => if c = '-' then [] else escaped start ++ if c = ']' then [']'] else []
  | .hyphen _ start, c =>
    if c = ']' then escaped start ++ escaped '-' ++ [']']
    else if c = '\\' then []
    else escaped start ++ '-' :: escaped c
  | .highEscape _ start, c => escaped start ++ '-' :: escaped c

/-- What is written for the rest of a text, from a place on and up to a flaw. -/
def expressionFrom : Place → List Char → List Char
  | _, [] => []
  | place, c :: cs =>
    match place.step c with
    | .error _ => []
    | .ok (_, next) => place.writes c ++ expressionFrom next cs

/-- **The regular expression** of a segment. -/
def Segment.expression (segment : Segment) : List Char :=
  expressionFrom .outside segment.text.toList

/-! ## 2. Reading -/

namespace Regex

/-- What covers one character. -/
inductive Atom where
  | char (c : Char)
  | anyOne
  | set (negated : Bool) (spans : List Span)
deriving DecidableEq, Repr

/-- What an expression is a row of. -/
inductive Token where
  | atom (a : Atom)
  | star
deriving DecidableEq, Repr

/-- The set read so far, its last span first. -/
structure OpenSet where
  negated : Bool
  spans : List Span
deriving DecidableEq, Repr

/-- The open set with one more span. -/
def OpenSet.add (draft : OpenSet) (s : Span) : OpenSet := { draft with spans := s :: draft.spans }

/-- The finished set. -/
def OpenSet.close (draft : OpenSet) : Token := .atom (.set draft.negated draft.spans.reverse)

/-- Where the reader of an expression stands. -/
inductive Place where
  /-- in front of a token -/
  | outside
  /-- behind a backslash in front of a token -/
  | escape
  /-- behind the bracket that opens a set -/
  | opening
  /-- in a set, where a member or, behind other members, the closing bracket may stand -/
  | member (draft : OpenSet)
  /-- behind a backslash where a member starts -/
  | lowEscape (draft : OpenSet)
  /-- behind the character `start` of a member -/
  | low (draft : OpenSet) (start : Char)
  /-- behind `start` and a hyphen -/
  | hyphen (draft : OpenSet) (start : Char)
  /-- behind `start`, a hyphen and a backslash -/
  | highEscape (draft : OpenSet) (start : Char)
deriving DecidableEq, Repr

/-- The characters that, bare, are operators outside of sets, or parts of some. -/
def operators : List Char :=
  ['(', ')', '[', ']', '{', '}', '?', '*', '+', '|', '^', '$', '\\', '.']

/-- The characters that, bare, are operators in sets, or might be taken for some. -/
def setOperators : List Char := ['[', ']', '-', '^', '\\', '&', '~', '|']

/-- A backslash in front of a letter or a digit is more than an escape. -/
def isEscapable (c : Char) : Bool := !c.isAlphanum

/-- A character of a set that may be a member by itself, start one, or close the set. -/
def stepMember (draft : OpenSet) (c : Char) : Option (Option Token × Place) :=
  if c = ']' then if draft.spans = [] then none else some (some draft.close, .outside)
  else if c = '\\' then some (none, .lowEscape draft)
  else if c ∈ setOperators then none
  else some (none, .low draft c)

/-- A character that is the end of a span which starts at `low`. -/
def stepHigh (draft : OpenSet) (low high : Char) : Option (Option Token × Place) :=
  if high.toNat < low.toNat then none else some (none, .member (draft.add ⟨low, high⟩))

/-- What one character of an expression does: the token that it finishes, if any, and the place after
it; `none` where the expression is not one. -/
def Place.step : Place → Char → Option (Option Token × Place)
  | .outside, c =>
    if c = '\\' then some (none, .escape)
    else if c = '.' then some (some (.atom .anyOne), .outside)
    else if c = '*' then some (some .star, .outside)
    else if c = '[' then some (none, .opening)
    else if c ∈ operators then none
    else some (some (.atom (.char c)), .outside)
  | .escape, c => if isEscapable c then some (some (.atom (.char c)), .outside) else none
  | .opening, c =>
    if c = '^' then some (none, .member ⟨true, []⟩) else stepMember ⟨false, []⟩ c
  | .member draft, c => stepMember draft c
  | .lowEscape draft, c => if isEscapable c then some (none, .low draft c) else none
  | .low draft start, c =>
    if c = '-' then some (none, .hyphen draft start) else stepMember (draft.add (.single start)) c
  | .hyphen draft start, c =>
    if c = '\\' then some (none, .highEscape draft start)
    else if c ∈ setOperators then none
    else stepHigh draft start c
  | .highEscape draft start, c => if isEscapable c then stepHigh draft start c else none

/-- The tokens of the rest of an expression, from a place on. -/
def scan : Place → List Char → Option (List Token)
  | .outside, [] => some []
  | _, [] => none
  | place, c :: cs =>
    match place.step c with
    | none => none
    | some (token, next) => (scan next cs).map (token.toList ++ ·)

/-- An atom, by itself or repeated. -/
structure Part where
  atom : Atom
  repeated : Bool
deriving DecidableEq, Repr

/-- The atoms of a row of tokens, each with its star; a star without an atom is wrong. -/
def parts : List Token → Option (List Part)
  | [] => some []
  | .star :: _ => none
  | .atom a :: .star :: tokens => (parts tokens).map (⟨a, true⟩ :: ·)
  | .atom a :: tokens => (parts tokens).map (⟨a, false⟩ :: ·)

/-- **Reading** an expression. -/
def read (expression : List Char) : Option (List Part) :=
  (scan .outside expression).bind parts

/-! ## 3. Matching -/

/-- The atom covers a character. -/
def Atom.covers : Atom → Char → Bool
  | .char d, c => d == c
  | .anyOne, _ => true
  | .set negated spans, c => spans.any (·.covers c) != negated

/-- The part covers a piece of a text. -/
def Part.covers (part : Part) (piece : List Char) : Bool :=
  if part.repeated then piece.all part.atom.covers
  else
    match piece with
    | [c] => part.atom.covers c
    | _ => false

/-- **Full match**: the text can be cut into pieces which the parts cover in order. -/
def covers : List Part → List Char → Bool
  | [], cs => cs.isEmpty
  | part :: parts, cs =>
    (List.range (cs.length + 1)).any fun n => part.covers (cs.take n) && covers parts (cs.drop n)

end Regex

/-! ## 4. Matchers -/

/-- What a segment is compiled to. -/
inductive Matcher where
  /-- a name, to be compared with -/
  | literal (name : String)
  /-- a regular expression, to be matched in full -/
  | expression (parts : List Regex.Part)
deriving DecidableEq, Repr

/-- The name matches. -/
def Matcher.covers : Matcher → String → Bool
  | .literal expected, name => expected == name
  | .expression parts, name => Regex.covers parts name.toList

/-- **The matcher of a segment**: its name if it is literal, or its regular expression; `none` where
that is not one. -/
def Segment.matcher? (segment : Segment) : Option Matcher :=
  match segment.literal? with
  | some name => some (.literal name)
  | none => (Regex.read segment.expression).map .expression

end Arboretum.Pattern
