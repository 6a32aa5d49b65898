import Arboretum.Fault
import Arboretum.Path.Lexical

/-!
# Names that are no texts

The host keeps a name as bytes.  Bytes that encode a text are read as that text; a byte that is part
of no character stays in the name as a **stray** one, with a number of its own between those of the
characters.  Such a name can be compared, split and joined like any other, but it cannot be encoded
again: a database does not take it, and neither does a terminal.
-/

namespace Arboretum.Archive

/-! ## 1. Signs -/

/-- One sign of a host's name: a character, or a stray byte. -/
inductive Sign where
  | char (c : Char)
  | stray (byte : UInt8)
deriving DecidableEq, Repr

namespace Sign

/-- The sign between the names of a path. -/
def slash : Sign := .char '/'

/-- The sign is a stray byte. -/
def isStray : Sign → Bool
  | .char _ => false
  | .stray _ => true

/-- The number of a sign; stray bytes have those that no character has. -/
def number : Sign → Nat
  | .char c => c.toNat
  | .stray byte => 0xDC00 + byte.toNat

/-- How many bytes of a path a sign takes. -/
def size : Sign → Nat
  | .char c => c.utf8Size
  | .stray _ => 1

/-- The sign as a character: every stray byte as the one that stands for what cannot be read. -/
def shown : Sign → Char
  | .char c => c
  | .stray _ => '\uFFFD'

/-- The written form of one sign between marks `mark`. -/
def quoted (mark : Char) : Sign → List Char
  | .char c => Text.quoteChar mark c
  | .stray byte => '\\' :: 'u' :: Text.hexDigits 4 (Sign.stray byte).number

end Sign

/-! ## 2. Texts of signs -/

/-- The signs of a text. -/
def signsOf (s : String) : List Sign := s.toList.map .char

/-- Signs as a text, with every stray byte shown. -/
def shown (signs : List Sign) : String := String.ofList (signs.map Sign.shown)

/-- Signs in quotation marks. -/
def quoteSigns (signs : List Sign) : String :=
  let mark := Text.quoteMark (signs.map Sign.shown)
  String.ofList (mark :: signs.flatMap (Sign.quoted mark) ++ [mark])

/-- How many bytes signs take. -/
def bytesOf (signs : List Sign) : Nat := signs.foldr (fun s n => s.size + n) 0

/-- **The fault of encoding** a text with stray bytes: it tells the first of them, or where those
stand that follow it. -/
def unencodable (signs : List Sign) : Fault :=
  let start := (signs.takeWhile fun s => !s.isStray).length
  let found :=
    match (signs.drop start).takeWhile Sign.isStray with
    | [s] => "character '" ++ String.ofList (s.quoted '\'') ++ "' in position " ++ toString start
    | several =>
      "characters in position " ++ toString start ++ "-" ++ toString (start + several.length - 1)
  .foreign "UnicodeEncodeError" ("'utf-8' codec can't encode " ++ found ++ ": surrogates not allowed")

/-- Two stray bytes behind three characters. -/
example : (unencodable (signsOf "/ab" ++ [.stray 0xC3, .stray 0xE9] ++ signsOf ".py")).message =
    "'utf-8' codec can't encode characters in position 3-4: surrogates not allowed" := by
  decide +kernel

/-! ## 3. Stray places -/

/-- **A stray place** below a directory: the names on the way to it, not all of which are texts, and
the size of the file that is found there.  Without one the place is a directory. -/
structure Stray where
  names : List (List Sign)
  size : Option Nat
  isStray : (names.any fun name => name.any Sign.isStray) = true
deriving DecidableEq, Repr

namespace Stray

/-- The signs of the path below the directory. -/
def path (place : Stray) : List Sign := [Sign.slash].intercalate place.names

/-- The names of a stray place, shown. -/
def shownNames (place : Stray) : List String := place.names.map shown

/-- The names of the directory that holds a stray place are texts. -/
def isHeld (place : Stray) : Bool :=
  place.names.dropLast.all fun name => name.all fun s => !s.isStray

end Stray

end Arboretum.Archive
