import Lookahead.Symbol
import Lookahead.Text.Quoted

/-!
# Letters

Where a nonterminal or a terminal is asked for by its letter, any other character is refused, and
the refusal says which of the two was asked for.
-/

namespace Lookahead

/-- A character that is not a letter of the kind asked for. -/
inductive LetterError where
  | notNonterminal (c : Char)
  | notTerminal (c : Char)
deriving DecidableEq, Repr

namespace LetterError

def message : LetterError → String
  | .notNonterminal c => "not a non-terminal: " ++ Text.quoteChar c
  | .notTerminal c => "not a terminal: " ++ Text.quoteChar c

end LetterError

namespace Symbol

/-- The nonterminal with letter `c`. -/
def nonterminalOf (c : Char) : Except LetterError Symbol :=
  match letterFrom 'A' c with
  | some letter => .ok (.nonterminal letter)
  | none => .error (.notNonterminal c)

/-- The terminal with letter `c`. -/
def terminalOf (c : Char) : Except LetterError Symbol :=
  match letterFrom 'a' c with
  | some letter => .ok (.terminal letter)
  | none => .error (.notTerminal c)

/-- The nonterminal from which derivations start unless another one is named. -/
def conventionalStart : Symbol := .nonterminal 18

end Symbol

end Lookahead
