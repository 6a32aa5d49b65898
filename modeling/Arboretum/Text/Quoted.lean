import Arboretum.Text.Printable

/-!
# Quoted texts

Messages and reports show a text between quotation marks.  The mark is the single one unless the
text holds a single and no double mark.  The mark itself and the backslash are escaped by a
backslash, line feed, carriage return and tab have their letters, and every other character that
is not printable is written by its number in two, four or eight hexadecimal digits.
-/

namespace Arboretum.Text

/-! ## 1. Digits -/

/-- The lower-case hexadecimal digit of a number below sixteen. -/
def hexDigit (n : Nat) : Char :=
  if n < 10 then Char.ofNat (48 + n) else Char.ofNat (87 + n)

/-- The lowest `width` hexadecimal digits of `n`, most significant first. -/
def hexDigits : (width n : Nat) → List Char
  | 0, _ => []
  | width + 1, n => hexDigits width (n / 16) ++ [hexDigit (n % 16)]

/-! ## 2. One character -/

/-- A character by its number: `\xhh`, `\uhhhh` or `\Uhhhhhhhh`, the shortest that holds it. -/
def numericEscape (c : Char) : List Char :=
  let n := c.toNat
  if n ≤ 0xFF then '\\' :: 'x' :: hexDigits 2 n
  else if n ≤ 0xFFFF then '\\' :: 'u' :: hexDigits 4 n
  else '\\' :: 'U' :: hexDigits 8 n

/-- The written form of one character between marks `mark`. -/
def quoteChar (mark c : Char) : List Char :=
  if c = mark ∨ c = '\\' then ['\\', c]
  else if c = '\n' then ['\\', 'n']
  else if c = '\r' then ['\\', 'r']
  else if c = '\t' then ['\\', 't']
  else if isPrintable c then [c]
  else numericEscape c

/-! ## 3. Whole texts -/

/-- The mark around a text: double if it holds a single and no double mark, else single. -/
def quoteMark (cs : List Char) : Char :=
  if '\'' ∈ cs ∧ '"' ∉ cs then '"' else '\''

/-- A text between its marks. -/
def quoteChars (cs : List Char) : List Char :=
  let mark := quoteMark cs
  mark :: cs.flatMap (quoteChar mark) ++ [mark]

/-- **A text in quotation marks**, every character shown or escaped. -/
def quote (s : String) : String := String.ofList (quoteChars s.toList)

/-- A list of texts: each quoted, commas between, in brackets. -/
def quoteList (texts : List String) : String :=
  "[" ++ ", ".intercalate (texts.map quote) ++ "]"

end Arboretum.Text
