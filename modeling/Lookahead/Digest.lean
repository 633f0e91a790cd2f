import Lookahead.Text.Quoted

/-!
# Digests

The MD5 digest of a text, written as 32 hexadecimal digits.  The text is padded with one set bit,
zeros and its length in bits to whole blocks of 64 bytes; each block, read as sixteen little-endian
words, stirs a state of four words in 64 steps.
-/

namespace Lookahead.Digest

/-- The four words that the blocks stir. -/
structure State where
  a : UInt32
  b : UInt32
  c : UInt32
  d : UInt32

/-- The state before the first block. -/
def initial : State := ⟨0x67452301, 0xEFCDAB89, 0x98BADCFE, 0x10325476⟩

/-- The whole part of `2 ^ 32 * |sin i|` for the steps `1` to `64`. -/
def sines : List UInt32 :=
  [0xd76aa478, 0xe8c7b756, 0x242070db, 0xc1bdceee, 0xf57c0faf, 0x4787c62a, 0xa8304613, 0xfd469501,
    0x698098d8, 0x8b44f7af, 0xffff5bb1, 0x895cd7be, 0x6b901122, 0xfd987193, 0xa679438e, 0x49b40821,
    0xf61e2562, 0xc040b340, 0x265e5a51, 0xe9b6c7aa, 0xd62f105d, 0x02441453, 0xd8a1e681, 0xe7d3fbc8,
    0x21e1cde6, 0xc33707d6, 0xf4d50d87, 0x455a14ed, 0xa9e3e905, 0xfcefa3f8, 0x676f02d9, 0x8d2a4c8a,
    0xfffa3942, 0x8771f681, 0x6d9d6122, 0xfde5380c, 0xa4beea44, 0x4bdecfa9, 0xf6bb4b60, 0xbebfbc70,
    0x289b7ec6, 0xeaa127fa, 0xd4ef3085, 0x04881d05, 0xd9d4d039, 0xe6db99e5, 0x1fa27cf8, 0xc4ac5665,
    0xf4292244, 0x432aff97, 0xab9423a7, 0xfc93a039, 0x655b59c3, 0x8f0ccc92, 0xffeff47d, 0x85845dd1,
    0x6fa87e4f, 0xfe2ce6e0, 0xa3014314, 0x4e0811a1, 0xf7537e82, 0xbd3af235, 0x2ad7d2bb, 0xeb86d391]

/-- How far each of four successive steps turns its word, by round of sixteen steps. -/
def turns (round : Nat) : List UInt32 :=
  match round with
  | 0 => [7, 12, 17, 22]
  | 1 => [5, 9, 14, 20]
  | 2 => [4, 11, 16, 23]
  | _ => [6, 10, 15, 21]

/-- The bits of a word turned to the left. -/
def turnLeft (x places : UInt32) : UInt32 := (x <<< places) ||| (x >>> (32 - places))

/-- How a step combines three words of the state, by round. -/
def mix (round : Nat) (b c d : UInt32) : UInt32 :=
  match round with
  | 0 => (b &&& c) ||| (~~~b &&& d)
  | 1 => (d &&& b) ||| (~~~d &&& c)
  | 2 => b ^^^ c ^^^ d
  | _ => c ^^^ (b ||| ~~~d)

/-- Which of the sixteen words of the block a step reads. -/
def wordAt (i : Nat) : Nat :=
  match i / 16 with
  | 0 => i
  | 1 => (5 * i + 1) % 16
  | 2 => (3 * i + 5) % 16
  | _ => 7 * i % 16

/-- Step `i` with its sine. -/
def step (block : Array UInt32) (s : State) (i : Nat) (sine : UInt32) : State :=
  let f := s.a + mix (i / 16) s.b s.c s.d + sine + block.getD (wordAt i) 0
  ⟨s.d, s.b + turnLeft f ((turns (i / 16)).getD (i % 4) 0), s.b, s.c⟩

/-- A block stirred into the state. -/
def stir (s : State) (block : Array UInt32) : State :=
  let t := sines.zipIdx.foldl (fun t entry => step block t entry.2 entry.1) s
  ⟨s.a + t.a, s.b + t.b, s.c + t.c, s.d + t.d⟩

/-- A number as `width` bytes, the lowest first. -/
def littleEndian : (width n : Nat) → List UInt8
  | 0, _ => []
  | width + 1, n => UInt8.ofNat (n % 256) :: littleEndian width (n / 256)

/-- The text with its padding. -/
def padded (bs : List UInt8) : List UInt8 :=
  let zeros := (119 - bs.length % 64) % 64
  bs ++ 0x80 :: List.replicate zeros 0 ++ littleEndian 8 (8 * bs.length)

/-- Bytes read as little-endian words; fewer than four bytes at the end are dropped. -/
def words : List UInt8 → List UInt32
  | w :: x :: y :: z :: rest =>
    (w.toUInt32 ||| x.toUInt32 <<< 8 ||| y.toUInt32 <<< 16 ||| z.toUInt32 <<< 24) :: words rest
  | _ => []

/-- The first `count` runs of sixteen words. -/
def blocks : (count : Nat) → List UInt32 → List (Array UInt32)
  | 0, _ => []
  | count + 1, ws => (ws.take 16).toArray :: blocks count (ws.drop 16)

/-- The digest of some bytes. -/
def ofBytes (bs : List UInt8) : List UInt8 :=
  let ws := words (padded bs)
  let s := (blocks (ws.length / 16) ws).foldl stir initial
  [s.a, s.b, s.c, s.d].flatMap fun w => littleEndian 4 w.toNat

/-- The digest of a text in hexadecimal. -/
def hex (s : String) : String :=
  String.ofList ((ofBytes (Text.bytes s)).flatMap fun b => Text.hexDigits 2 b.toNat)

end Lookahead.Digest
