import Lookahead.Text.Utf8

/-!
# Blanks

The characters with the Unicode property `White_Space` separate words.  A line is freed of them at
both ends, and taken apart at them.
-/

namespace Lookahead.Text

/-- The code points with the property `White_Space`, as ranges with both ends included. -/
def blankRanges : List (Nat × Nat) :=
  [(0x09, 0x0D), (0x20, 0x20), (0x85, 0x85), (0xA0, 0xA0), (0x1680, 0x1680), (0x2000, 0x200A),
    (0x2028, 0x2029), (0x202F, 0x202F), (0x205F, 0x205F), (0x3000, 0x3000)]

/-- A character that separates words. -/
def isBlank (c : Char) : Bool :=
  blankRanges.any fun r => r.1 ≤ c.toNat && c.toNat ≤ r.2

/-- A piece that separates words.  A stray byte is no blank. -/
def Piece.isBlank : Piece → Bool
  | .char c => Text.isBlank c
  | .stray _ => false

/-- A text without the blanks at both ends. -/
def trim (text : List UInt8) : List UInt8 :=
  let inner := ((decode text).dropWhile Piece.isBlank).reverse.dropWhile Piece.isBlank
  inner.reverse.flatMap Piece.bytes

/-- The first word of a text, empty if there is none. -/
def firstWord (text : List UInt8) : List UInt8 :=
  let word := ((decode text).dropWhile Piece.isBlank).takeWhile fun p => !p.isBlank
  word.flatMap Piece.bytes

end Lookahead.Text
