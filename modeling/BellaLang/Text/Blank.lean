-- The blanks that may stand around a number written as text, and the trimming
-- of both ends of a text.

namespace BellaLang.Text

/-! ## The class -/

/-- The code points of the blanks beyond the ASCII ones. -/
def wideBlanks : List Nat :=
  [0x85, 0xa0, 0x1680, 0x2000, 0x2001, 0x2002, 0x2003, 0x2004, 0x2005, 0x2006, 0x2007, 0x2008,
   0x2009, 0x200a, 0x2028, 0x2029, 0x202f, 0x205f, 0x3000]

/-- Whether a character is a blank: a space, a tab, a line or page break, or one of the
wide blanks. -/
def isBlank (c : Char) : Bool :=
  c == ' ' || (9 ≤ c.toNat && c.toNat ≤ 13) || wideBlanks.contains c.toNat

/-! ## Trimming -/

/-- The text without the blanks at its two ends. -/
def trim (cs : List Char) : List Char :=
  ((cs.dropWhile isBlank).reverse.dropWhile isBlank).reverse

end BellaLang.Text
