/-!
# Blank characters

The characters that separate tokens without being part of any: the Unicode
property `White_Space`. A blank stands between the tokens of an expression and
at the start of a comment line.
-/

namespace Phrasebook

/-- The code points of the Unicode property `White_Space`, as inclusive ranges. -/
def blankRanges : List (Nat × Nat) :=
  [(0x0009, 0x000D), (0x0020, 0x0020), (0x0085, 0x0085), (0x00A0, 0x00A0), (0x1680, 0x1680),
   (0x2000, 0x200A), (0x2028, 0x2029), (0x202F, 0x202F), (0x205F, 0x205F), (0x3000, 0x3000)]

/-- Whether a character is blank. -/
def isBlank (c : Char) : Bool :=
  blankRanges.any fun (low, high) => low ≤ c.toNat && c.toNat ≤ high

/-- A text from its first character that is not blank. -/
def trimBlank (cs : List Char) : List Char :=
  cs.dropWhile isBlank

end Phrasebook
