import Lookahead.Span
import Lookahead.Symbol
import Lookahead.Text.Quoted

/-!
# Tokens

The pieces of a rule: letters, the arrow between its two sides, the bar between alternatives and the
empty word, each with the bytes it was read from and where they stood.
-/

namespace Lookahead

/-- What a token is. -/
inductive TokenKind where
  /-- The end of the input. -/
  | eof
  /-- Input that is no token. -/
  | illegal
  | nonterminal
  | terminal
  /-- The arrow between the two sides of a rule. -/
  | arrow
  /-- The bar between two alternatives. -/
  | bar
  | epsilon
  /-- A kind that is not used for rules, by its number. -/
  | other (code : Int)
deriving DecidableEq, Repr

namespace TokenKind

def ofCode (code : Int) : TokenKind :=
  if code = -1 then .eof
  else if code = 1 then .illegal
  else if code = 2 then .nonterminal
  else if code = 3 then .terminal
  else if code = 4 then .arrow
  else if code = 5 then .bar
  else if code = 6 then .epsilon
  else .other code

def code : TokenKind → Int
  | .eof => -1
  | .illegal => 1
  | .nonterminal => 2
  | .terminal => 3
  | .arrow => 4
  | .bar => 5
  | .epsilon => 6
  | .other code => code

def name : TokenKind → String
  | .eof => "EOF"
  | .illegal => "Illegal"
  | .nonterminal => "NonTerm"
  | .terminal => "Term"
  | .arrow => "Arrow"
  | .bar => "Bar"
  | .epsilon => "Epsilon"
  | .other code => "TokType(" ++ toString code ++ ")"

end TokenKind

/-- A token with the bytes it was read from. -/
structure Token where
  kind : TokenKind
  lexeme : List UInt8
  span : Span
deriving DecidableEq, Repr

namespace Token

/-- A token as text: its kind, its bytes in quotes and its span. -/
def text (t : Token) : String :=
  t.kind.name ++ "(" ++ Text.quoteBytes t.lexeme ++ ")" ++ t.span.text

/-- The symbol that the first byte of a token writes. -/
def symbol (t : Token) : Symbol :=
  match t.lexeme with
  | [] => .absent
  | b :: _ => .ofChar (Char.ofNat b.toNat)

end Token

end Lookahead
