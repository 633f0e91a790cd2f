/-!
# Bytes and characters

Rules are scanned byte by byte.  `Text.bytes` is the UTF-8 form of a string, and `Text.decode`
takes bytes apart again into characters and stray bytes.  A character is recognised at the front of
some bytes exactly when its own UTF-8 form stands there, so forms that are too long, surrogates and
numbers beyond the last code point are all stray.
-/

namespace Lookahead.Text

/-- The UTF-8 form of a string. -/
def bytes (s : String) : List UInt8 := s.toList.flatMap String.utf8EncodeChar

/-- A byte that continues a character begun before it. -/
def isContinuation (b : UInt8) : Bool := 0x80 ≤ b && b < 0xC0

/-- What decoding finds: a character, or a byte that is part of none. -/
inductive Piece where
  | char (c : Char)
  | stray (b : UInt8)
deriving DecidableEq, Repr

/-- The character of a piece, if it is one. -/
def Piece.char? : Piece → Option Char
  | .char c => some c
  | .stray _ => none

/-- The bytes of a piece. -/
def Piece.bytes : Piece → List UInt8
  | .char c => String.utf8EncodeChar c
  | .stray b => [b]

/-- The six payload bits of the byte at a place behind the first one. -/
def payload (rest : List UInt8) (i : Nat) : Nat := (rest.getD i 0).toNat % 64

/-- The number that a first byte and the bytes behind it spell, if they spell a character. -/
def spelled (b : UInt8) (rest : List UInt8) : Nat :=
  if b < 0x80 then b.toNat
  else if b < 0xE0 then b.toNat % 32 * 64 + payload rest 0
  else if b < 0xF0 then (b.toNat % 16 * 64 + payload rest 0) * 64 + payload rest 1
  else ((b.toNat % 8 * 64 + payload rest 0) * 64 + payload rest 1) * 64 + payload rest 2

/-- The character whose UTF-8 form stands at the front of `b :: rest`. -/
def charAt? (b : UInt8) (rest : List UInt8) : Option Char :=
  let c := Char.ofNat (spelled b rest)
  if (String.utf8EncodeChar c).isPrefixOf (b :: rest) then some c else none

/-- Takes bytes apart, passing over the first `skip` of them. -/
def decodeFrom : (skip : Nat) → List UInt8 → List Piece
  | _, [] => []
  | skip + 1, _ :: rest => decodeFrom skip rest
  | 0, b :: rest =>
    match charAt? b rest with
    | some c => .char c :: decodeFrom (c.utf8Size - 1) rest
    | none => .stray b :: decodeFrom 0 rest

/-- The characters and stray bytes of some bytes, in order. -/
def decode (bs : List UInt8) : List Piece := decodeFrom 0 bs

/-- The string whose UTF-8 form is given, if there is one. -/
def ofBytes? (bs : List UInt8) : Option String :=
  ((decode bs).mapM Piece.char?).map String.ofList

/-- The character with a given number; a number of no character gives the replacement character. -/
def charOfNumber (n : Int) : Char :=
  if 0 ≤ n ∧ n.toNat.isValidChar then Char.ofNat n.toNat else Char.ofNat 0xFFFD

end Lookahead.Text
