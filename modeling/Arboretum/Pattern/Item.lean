/-!
# What a name pattern is made of

A name pattern is a list of items.  A plain item covers one given character, `?` any one
character, `*` any stretch of characters, and a class one character that is (or, negated, is not)
in one of its spans.  A name matches when it can be cut into pieces that the items cover in order.
-/

namespace Arboretum.Pattern

/-! ## 1. Classes -/

/-- The characters from `low` to `high`, by code point, ends included. -/
structure Span where
  low : Char
  high : Char
deriving DecidableEq, Repr

/-- A span that holds one character. -/
def Span.single (c : Char) : Span := ⟨c, c⟩

/-- The character lies in the span. -/
def Span.covers (s : Span) (c : Char) : Bool := s.low.toNat ≤ c.toNat && c.toNat ≤ s.high.toNat

/-- How a class is negated, by the mark that it is written with. -/
inductive Negation where
  | unmarked
  | bang
  | caret
deriving DecidableEq, Repr

/-- A character class. -/
structure CharClass where
  negation : Negation
  spans : List Span
deriving DecidableEq, Repr

/-- **A class covers a character** that lies in one of its spans, or in none if it is negated. -/
def CharClass.covers (cls : CharClass) (c : Char) : Bool :=
  (cls.spans.any (·.covers c)) != (cls.negation != .unmarked)

/-! ## 2. Items -/

/-- One item of a name pattern. -/
inductive Item where
  | char (c : Char)
  | anyOne
  | anyRun
  | oneOf (cls : CharClass)
deriving DecidableEq, Repr

/-- The character that a plain item stands for. -/
def Item.plain? : Item → Option Char
  | .char c => some c
  | _ => none

/-- Some names other than one fixed text can match: the item is not a plain character. -/
def Item.isWild (item : Item) : Bool := item.plain?.isNone

/-! ## 3. Matching -/

/-- All tails of a text, the text itself first and the empty one last. -/
def tails : List Char → List (List Char)
  | [] => [[]]
  | c :: cs => (c :: cs) :: tails cs

/-- **Matching**: the items cover the text piece by piece, all of it. -/
def covers : List Item → List Char → Bool
  | [], [] => true
  | [], _ :: _ => false
  | .anyRun :: items, cs => (tails cs).any (covers items)
  | _ :: _, [] => false
  | .char d :: items, c :: cs => d == c && covers items cs
  | .anyOne :: items, _ :: cs => covers items cs
  | .oneOf cls :: items, c :: cs => cls.covers c && covers items cs

end Arboretum.Pattern
