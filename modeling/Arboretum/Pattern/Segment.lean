import Arboretum.Pattern.Item

/-!
# Segments

A segment is the pattern of one name.  Its text is read one character at a time: a backslash takes
the next character as it is, `*` and `?` are wild, and `[` opens a class.  A class may start with
a negation mark `!` or `^`; a `]` in first place is a member; a member followed by `-` and a
character other than `]` is the start of a span; a backslash takes the next character as it is in
both places.  Four texts are no pattern: a backslash at the end, a class without its end, a span
whose end lies below its start, and (for patterns of one name) a text with a separator.
-/

namespace Arboretum.Pattern

/-! ## 1. Flaws -/

/-- Why a text is not a pattern. -/
inductive Flaw where
  | trailingEscape
  | openClass
  | reversedSpan (low high : Char)
  | separator
deriving DecidableEq, Repr

/-- The reason as it is worded in messages. -/
def Flaw.message : Flaw → String
  | .trailingEscape => "trailing escape character"
  | .openClass => "unterminated character class"
  | .reversedSpan low high => "reversed range " ++ String.ofList [low, '-', high]
  | .separator => "name patterns cannot contain a separator"

/-! ## 2. Reading -/

/-- The class read so far: its negation, and its spans with the last one first. -/
structure OpenClass where
  negation : Negation
  spans : List Span
deriving DecidableEq, Repr

/-- The open class with one more span. -/
def OpenClass.add (draft : OpenClass) (s : Span) : OpenClass :=
  { draft with spans := s :: draft.spans }

/-- The finished class. -/
def OpenClass.close (draft : OpenClass) : CharClass := ⟨draft.negation, draft.spans.reverse⟩

/-- Where the reader stands. -/
inductive Place where
  /-- between two items -/
  | outside
  /-- behind a backslash between two items -/
  | escape
  /-- behind the bracket that opens a class -/
  | opening
  /-- in a class, where its first member must start -/
  | first (draft : OpenClass)
  /-- in a class, where a member or the closing bracket may stand -/
  | member (draft : OpenClass)
  /-- behind a backslash where a member starts -/
  | lowEscape (draft : OpenClass)
  /-- behind the character `start` of a member -/
  | low (draft : OpenClass) (start : Char)
  /-- behind `start` and a hyphen -/
  | hyphen (draft : OpenClass) (start : Char)
  /-- behind `start`, a hyphen and a backslash -/
  | highEscape (draft : OpenClass) (start : Char)
deriving DecidableEq, Repr

/-- What a character does: the item that it finishes, if any, and the place after it. -/
abbrev Step := Option Item × Place

/-- A character between two items. -/
def stepOutside (c : Char) : Step :=
  if c = '\\' then (none, .escape)
  else if c = '*' then (some .anyRun, .outside)
  else if c = '?' then (some .anyOne, .outside)
  else if c = '[' then (none, .opening)
  else (some (.char c), .outside)

/-- A character that must start a member. -/
def stepFirst (draft : OpenClass) (c : Char) : Step :=
  if c = '\\' then (none, .lowEscape draft) else (none, .low draft c)

/-- A character that starts a member or closes the class. -/
def stepMember (draft : OpenClass) (c : Char) : Step :=
  if c = ']' then (some (.oneOf draft.close), .outside) else stepFirst draft c

/-- A character that is the end of a span which starts at `low`. -/
def stepHigh (draft : OpenClass) (low high : Char) : Except Flaw Step :=
  if high.toNat < low.toNat then .error (.reversedSpan low high)
  else .ok (none, .member (draft.add ⟨low, high⟩))

/-- What one character does where the reader stands. -/
def Place.step : Place → Char → Except Flaw Step
  | .outside, c => .ok (stepOutside c)
  | .escape, c => .ok (some (.char c), .outside)
  | .opening, c =>
    .ok (if c = '!' then (none, .first ⟨.bang, []⟩)
      else if c = '^' then (none, .first ⟨.caret, []⟩)
      else stepFirst ⟨.unmarked, []⟩ c)
  | .first draft, c => .ok (stepFirst draft c)
  | .member draft, c => .ok (stepMember draft c)
  | .lowEscape draft, c => .ok (none, .low draft c)
  | .low draft start, c =>
    .ok (if c = '-' then (none, .hyphen draft start) else stepMember (draft.add (.single start)) c)
  | .hyphen draft start, c =>
    if c = ']' then .ok (stepMember ((draft.add (.single start)).add (.single '-')) c)
    else if c = '\\' then .ok (none, .highEscape draft start)
    else stepHigh draft start c
  | .highEscape draft start, c => stepHigh draft start c

/-- What is wrong when the text ends where the reader stands. -/
def Place.flaw? : Place → Option Flaw
  | .outside => none
  | .escape => some .trailingEscape
  | _ => some .openClass

/-- **Reading** the rest of a text from a place on. -/
def scan : Place → List Char → Except Flaw (List Item)
  | place, [] =>
    match place.flaw? with
    | none => .ok []
    | some flaw => .error flaw
  | place, c :: cs =>
    match place.step c with
    | .error flaw => .error flaw
    | .ok (item, next) =>
      match scan next cs with
      | .error flaw => .error flaw
      | .ok items => .ok (item.toList ++ items)

/-! ## 3. Segments -/

/-- A segment: its text as written, and its items. -/
structure Segment where
  text : String
  items : List Item
deriving DecidableEq, Repr

/-- The segment that a text is, or its first flaw. -/
def Segment.read (text : String) : Except Flaw Segment :=
  match scan .outside text.toList with
  | .error flaw => .error flaw
  | .ok items => .ok ⟨text, items⟩

/-- The pattern of one name, which has no separator in it. -/
def Segment.readName (text : String) : Except Flaw Segment :=
  if '/' ∈ text.toList then .error .separator else Segment.read text

namespace Segment

/-- Some item of the segment is wild. -/
def isWild (segment : Segment) : Bool := segment.items.any Item.isWild

/-- **The name that a segment without wild items stands for**, escapes resolved. -/
def literal? (segment : Segment) : Option String :=
  (segment.items.mapM Item.plain?).map String.ofList

/-- The segment matches a name. -/
def covers (segment : Segment) (name : String) : Bool :=
  Pattern.covers segment.items name.toList

/-- The text uses neither escapes nor the caret, so the shell's own reading of it
(`Arboretum.Pattern.Shell`) is at hand. -/
def isPlainShell (segment : Segment) : Bool :=
  '\\' ∉ segment.text.toList && segment.items.all fun
    | .oneOf cls => cls.negation != .caret
    | _ => true

/-- **The hint** that a store may use to narrow a listing: the text of a wild segment, where the
shell reads it alike. -/
def hint? (segment : Segment) : Option String :=
  if segment.isWild && segment.isPlainShell then some segment.text else none

end Segment

/-- A name passes a list of segments when one of them matches it, or when there are none. -/
def passes (segments : List Segment) (name : String) : Bool :=
  segments.isEmpty || segments.any (·.covers name)

end Arboretum.Pattern
