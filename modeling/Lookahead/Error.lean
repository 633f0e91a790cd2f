import Lookahead.Grammar.Draft
import Lookahead.LL1.Violation
import Lookahead.Span

/-!
# Errors

Everything that can keep a text from being read as a grammar, or a grammar from being analysed.
Each error is its cause; the wording is in `message` alone.  What was typed is kept as bytes, since
it need not be text, and so is the wording that repeats it.
-/

namespace Lookahead

/-- What is wrong with a line of rule text. -/
inductive RuleFault where
  /-- Some bytes are no token. -/
  | unexpected (lexeme : List UInt8)
  | missingArrow
  /-- The arrow does not stand behind a single nonterminal. -/
  | leftSide
  | secondArrow
  /-- An alternative holds `ϵ` and letters. -/
  | mixedEpsilon
deriving DecidableEq, Repr

namespace RuleFault

def message : RuleFault → String
  | .unexpected lexeme => "unexpected character " ++ Text.quoteBytes lexeme
  | .missingArrow => "missing '->'"
  | .leftSide => "left side must be a single upper case letter"
  | .secondArrow => "more than one '->' in rule"
  | .mixedEpsilon => "ϵ mixed with other symbols"

end RuleFault

/-- A line of rule text that is no rule. -/
structure RuleError where
  /-- The number of the line, counted from one. -/
  line : Nat
  /-- The columns at fault. -/
  span : Span
  /-- The line itself. -/
  input : List UInt8
  fault : RuleFault
deriving DecidableEq, Repr

namespace RuleError

def message (e : RuleError) : String :=
  "malformed grammar rule: line " ++ toString e.line ++
    ", column " ++ toString (e.span.start + 1) ++ ": " ++ e.fault.message

end RuleError

/-- Why a request about a grammar fails. -/
inductive Error where
  | rule (e : RuleError)
  | draft (e : DraftError)
  | letter (e : LetterError)
  | violation (v : Violation)
  | unknownCommand (command : List UInt8)
deriving DecidableEq, Repr

namespace Error

def message : Error → List UInt8
  | .rule e => Text.bytes e.message
  | .draft e => Text.bytes e.message
  | .letter e => Text.bytes e.message
  | .violation v => Text.bytes v.message
  | .unknownCommand command => Text.bytes "unknown command: " ++ command

end Error

end Lookahead
