import Lookahead.Text.Printable
import Lookahead.Text.Utf8

/-!
# Quoted text

Text between quotes, on one line and readable whatever it holds.  The quote in use and the
backslash stand behind a backslash; seven control characters have a letter of their own; other
control characters and stray bytes are two hexadecimal digits behind `\x`; any other character that
is not printable is four digits behind `\u`, or eight behind `\U` if four do not suffice.  Printable
characters stand for themselves.
-/

namespace Lookahead.Text

/-- The quote around strings. -/
def doubleQuote : Char := Char.ofNat 34

/-- The quote around single characters. -/
def singleQuote : Char := Char.ofNat 39

/-- The character that begins an escape. -/
def backslash : Char := Char.ofNat 92

/-- The control characters that have a letter of their own, with that letter. -/
def letterEscapes : List (Nat × Char) :=
  [(7, 'a'), (8, 'b'), (9, 't'), (10, 'n'), (11, 'v'), (12, 'f'), (13, 'r')]

/-- The lowest `width` hexadecimal digits of a number, in lower case. -/
def hexDigits : (width n : Nat) → List Char
  | 0, _ => []
  | width + 1, n => hexDigits width (n / 16) ++ [Nat.digitChar (n % 16)]

/-- One character as it stands between quotes. -/
def escapeChar (quote c : Char) : List Char :=
  if c = quote ∨ c = backslash then [backslash, c]
  else if isPrintable c then [c]
  else match letterEscapes.lookup c.toNat with
    | some letter => [backslash, letter]
    | none =>
      if c.toNat < 0x80 then backslash :: 'x' :: hexDigits 2 c.toNat
      else if c.toNat < 0x10000 then backslash :: 'u' :: hexDigits 4 c.toNat
      else backslash :: 'U' :: hexDigits 8 c.toNat

/-- One piece of decoded bytes as it stands between quotes. -/
def escapePiece (quote : Char) : Piece → List Char
  | .char c => escapeChar quote c
  | .stray b => backslash :: 'x' :: hexDigits 2 b.toNat

/-- Bytes in double quotes. -/
def quoteBytes (bs : List UInt8) : String :=
  String.ofList
    (doubleQuote :: (decode bs).flatMap (escapePiece doubleQuote) ++ [doubleQuote])

/-- A string in double quotes. -/
def quote (s : String) : String :=
  String.ofList
    (doubleQuote :: s.toList.flatMap (escapeChar doubleQuote) ++ [doubleQuote])

/-- A character in single quotes. -/
def quoteChar (c : Char) : String :=
  String.ofList (singleQuote :: escapeChar singleQuote c ++ [singleQuote])

end Lookahead.Text
