/-!
# Blank characters at the ends of a text

A virtual path is read without the blanks around it.  This file fixes which characters are blank
(the white space of Unicode together with the four separator controls `U+001C` to `U+001F`) and
what trimming means: the longest blank stretches at both ends go, blanks inside stay.
-/

namespace Arboretum.Text

/-! ## 1. The class -/

/-- **Blank**: white space of Unicode, or one of the four separator controls. -/
def isBlank (c : Char) : Bool :=
  let n := c.toNat
  (0x09 ≤ n && n ≤ 0x0D) || (0x1C ≤ n && n ≤ 0x20) || n == 0x85 || n == 0xA0 || n == 0x1680
    || (0x2000 ≤ n && n ≤ 0x200A) || n == 0x2028 || n == 0x2029 || n == 0x202F || n == 0x205F
    || n == 0x3000

/-- The separator of paths is not blank. -/
theorem isBlank_slash : isBlank '/' = false := by decide

/-! ## 2. Trimming -/

/-- The text without its leading blanks. -/
def trimStart (cs : List Char) : List Char := cs.dropWhile isBlank

/-- The text without its trailing blanks. -/
def trimEnd (cs : List Char) : List Char := (cs.reverse.dropWhile isBlank).reverse

/-- The text without the blanks at either end. -/
def trim (cs : List Char) : List Char := trimEnd (trimStart cs)

end Arboretum.Text
