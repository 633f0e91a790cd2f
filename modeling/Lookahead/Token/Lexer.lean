import Lookahead.Token.Basic

/-!
# Scanning rules

Rules are scanned as bytes.  At each position stands the longest piece that can be read there: a run
of white space, a comment in braces, a letter, an arrow (`->` or `→`), a bar or an `ϵ`.  White space
and comments are passed over.  Where nothing can be read the scanner is stuck: it reports a fault
that reaches just behind the first byte with which no piece can go on, or to the end of the input if
every byte can still go on, and it hands out an illegal token that covers these bytes and the rest of
a character begun in them.

Every piece has a first byte, so scanning moves forward and ends with the input.
-/

namespace Lookahead

/-- What stands at a position: its first byte and so many bytes behind it. -/
inductive Lexeme where
  /-- White space or a comment. -/
  | skipped (more : Nat)
  /-- A token. -/
  | token (kind : TokenKind) (more : Nat)
  /-- Nothing that can be read. -/
  | stuck (more : Nat)
deriving DecidableEq, Repr

namespace Lexeme

/-- Space, tab, carriage return and line feed. -/
def isSpace (b : UInt8) : Bool := b == 0x20 || b == 0x09 || b == 0x0D || b == 0x0A

/-- A token that is spelled out: a first byte, read already, and the bytes behind it. -/
def spelled (kind : TokenKind) (wanted rest : List UInt8) : Lexeme :=
  let agreeing := ((wanted.zip rest).takeWhile fun pair => pair.1 == pair.2).length
  if agreeing = wanted.length then .token kind agreeing
  else .stuck (min (agreeing + 1) rest.length)

/-- A comment whose opening brace is read already; it reaches to the next closing brace. -/
def comment (rest : List UInt8) : Lexeme :=
  let inner := (rest.takeWhile fun b => b != 0x7D).length
  if inner = rest.length then .stuck inner else .skipped (inner + 1)

/-- What stands at the front of `b :: rest`. -/
def front (b : UInt8) (rest : List UInt8) : Lexeme :=
  if isSpace b then .skipped (rest.takeWhile isSpace).length
  else if b = 0x7B then comment rest
  else if 0x41 ≤ b ∧ b ≤ 0x5A then .token .nonterminal 0
  else if 0x61 ≤ b ∧ b ≤ 0x7A then .token .terminal 0
  else if b = 0x2D then spelled .arrow [0x3E] rest
  else if b = 0xE2 then spelled .arrow [0x86, 0x92] rest
  else if b = 0x7C then .token .bar 0
  else if b = 0xCF then spelled .epsilon [0xB5] rest
  else .stuck 0

end Lexeme

/-- Where the scanner was stuck: from its position to just behind the byte that stopped it. -/
structure Fault where
  start : Nat
  stop : Nat
deriving DecidableEq, Repr

namespace Fault

/-- Line and column of the byte at an index.  Lines count from one; a line feed begins its line at
column zero; behind the end, the last byte counts. -/
def position (input : List UInt8) (i : Nat) : Nat × Nat :=
  (input.take (i + 1)).foldl
    (fun place b => if b = 0x0A then (place.1 + 1, 0) else (place.1, place.2 + 1)) (1, 0)

/-- A position as text. -/
def positionText (p : Nat × Nat) : String := toString p.1 ++ ":" ++ toString p.2

/-- The bytes that could not be read. -/
def unread (f : Fault) (input : List UInt8) : List UInt8 :=
  (input.take f.stop).drop f.start

def message (f : Fault) (input : List UInt8) : String :=
  "Lexer error: could not match text starting at " ++ positionText (position input f.start) ++
    " failing at " ++ positionText (position input f.stop) ++
    ".\n\tunmatched text: " ++ Text.quoteBytes (f.unread input)

end Fault

/-- A token, and the fault behind it if it is illegal. -/
structure Scanned where
  token : Token
  fault? : Option Fault
deriving DecidableEq, Repr

namespace Scanned

/-- The token of a kind that is read at `pos`. -/
def legal (pos : Nat) (kind : TokenKind) (lexeme : List UInt8) : Scanned :=
  ⟨⟨kind, lexeme, ⟨pos, pos + lexeme.length⟩⟩, none⟩

/-- The illegal token at `pos`, with a fault over its first bytes. -/
def illegal (pos : Nat) (lexeme : List UInt8) (more : Nat) : Scanned :=
  ⟨⟨.illegal, lexeme, ⟨pos, pos + lexeme.length⟩⟩, some ⟨pos, pos + 1 + more⟩⟩

end Scanned

/-- How many bytes behind a stuck position belong to the illegal token: those that were looked at,
and those that continue a character. -/
def Lexeme.extent (more : Nat) (rest : List UInt8) : Nat :=
  more + ((rest.drop more).takeWhile Text.isContinuation).length

/-- The tokens from `pos` on, where the first `skip` bytes are already read. -/
def scanFrom : (skip pos : Nat) → List UInt8 → List Scanned
  | _, _, [] => []
  | skip + 1, pos, _ :: rest => scanFrom skip (pos + 1) rest
  | 0, pos, b :: rest =>
    match Lexeme.front b rest with
    | .skipped more => scanFrom more (pos + 1) rest
    | .token kind more =>
      .legal pos kind (b :: rest.take more) :: scanFrom more (pos + 1) rest
    | .stuck more =>
      let extent := Lexeme.extent more rest
      .illegal pos (b :: rest.take extent) more :: scanFrom extent (pos + 1) rest

/-- All tokens of an input, with their faults. -/
def scan (input : List UInt8) : List Scanned := scanFrom 0 0 input

/-- The tokens of an input. -/
def tokens (input : List UInt8) : List Token := (scan input).map Scanned.token

/-- The first fault of an input. -/
def firstFault? (input : List UInt8) : Option Fault := (scan input).findSome? Scanned.fault?

/-- The first token from `pos` on, where the first `skip` bytes are already read, and the position
and the bytes behind it. -/
def findFrom : (skip pos : Nat) → List UInt8 → Option (Scanned × Nat × List UInt8)
  | _, _, [] => none
  | skip + 1, pos, _ :: rest => findFrom skip (pos + 1) rest
  | 0, pos, b :: rest =>
    match Lexeme.front b rest with
    | .skipped more => findFrom more (pos + 1) rest
    | .token kind more =>
      some (.legal pos kind (b :: rest.take more), pos + 1 + more, rest.drop more)
    | .stuck more =>
      let extent := Lexeme.extent more rest
      some (.illegal pos (b :: rest.take extent) more, pos + 1 + extent, rest.drop extent)

/-- A scanner that reads the tokens of an input one by one. -/
structure Scanner where
  /-- Where the bytes not yet read start. -/
  pos : Nat
  /-- The bytes not yet read. -/
  rest : List UInt8
  /-- The length of the input. -/
  stop : Nat

namespace Scanner

/-- The scanner at the front of an input. -/
def ofInput (input : List UInt8) : Scanner := ⟨0, input, input.length⟩

/-- The next token, and the scanner behind it.  At the end of the input the end is handed out, as
often as it is asked for. -/
def next (s : Scanner) : Scanned × Scanner :=
  match findFrom 0 s.pos s.rest with
  | none => (⟨⟨.eof, [], ⟨s.stop, s.stop⟩⟩, none⟩, s)
  | some (t, pos, rest) => (t, { s with pos, rest })

end Scanner

end Lookahead
