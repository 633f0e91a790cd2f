import Lookahead.Symbol
import Lookahead.Text.Utf8

/-!
# Symbol codes

A symbol as two numbers: its kind and its character.  Codes are not checked, so most of them are
codes of no symbol; name, index and text are still read off the numbers, and `Symbol.code` gives
the codes that are in use.
-/

namespace Lookahead

/-- A kind number and a character number. -/
structure SymbolCode where
  kind : Int8
  char : Int32
deriving DecidableEq

namespace SymbolCode

/-- The name of a kind number. -/
def kindName (kind : Int8) : String :=
  if kind = 1 then "non-terminal"
  else if kind = 2 then "terminal"
  else if kind = 3 then "epsilon"
  else if kind = 4 then "end-marker"
  else "none"

/-- The index that the two numbers give; the distance to the first letter is a word of 32 bits. -/
def index (code : SymbolCode) : Int :=
  if code.kind = 1 then (code.char - 65).toInt
  else if code.kind = 2 then 26 + (code.char - 97).toInt
  else if code.kind = 3 then 52
  else if code.kind = 4 then 53
  else -1

/-- The text of a code: its character, or `<none>` where there is no kind. -/
def text (code : SymbolCode) : String :=
  if code.kind = 0 then "<none>" else (Text.charOfNumber code.char.toInt).toString

/-- Codes compare by their characters alone. -/
def compare (a b : SymbolCode) : Ordering :=
  if a.char < b.char then .lt else if b.char < a.char then .gt else .eq

end SymbolCode

namespace Symbol

/-- The number of a symbol's kind. -/
def kindCode : Symbol → Int8
  | .absent => 0
  | .nonterminal _ => 1
  | .terminal _ => 2
  | .epsilon => 3
  | .endMarker => 4

/-- The code of a symbol. -/
def code (X : Symbol) : SymbolCode := ⟨X.kindCode, Int32.ofNat X.char.toNat⟩

/-- A symbol and its code have the same index. -/
theorem index_code (X : Symbol) : X.code.index = X.index := by
  cases X with
  | absent => rfl
  | nonterminal i => revert i; decide
  | terminal i => revert i; decide
  | epsilon => rfl
  | endMarker => rfl

end Symbol

end Lookahead
