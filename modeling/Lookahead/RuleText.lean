import Lookahead.Error
import Lookahead.Text.Lines
import Lookahead.Token.Lexer

/-!
# Rule text

A grammar is written in lines of bytes, each a nonterminal, an arrow and alternatives between bars.
A line without tokens is blank.  An alternative without letters stands for `ϵ`, whether `ϵ` is
written or not; `ϵ` beside letters is refused.

A line at fault has one reported fault.  Illegal tokens come first, then a missing arrow, then the
left side; the right side is read from left to right, where an alternative is judged only when it
ends and a second arrow at once.
-/

namespace Lookahead.RuleText

/-- A fault and the columns it is at. -/
abbrev Located := Span × RuleFault

/-- An alternative that has not ended yet. -/
structure Alternative where
  symbols : List Symbol
  /-- Where `ϵ` was last read. -/
  epsilonAt? : Option Span
deriving DecidableEq, Repr

namespace Alternative

/-- The alternative in which nothing is read. -/
def empty : Alternative := ⟨[], none⟩

/-- The production of an alternative that ends. -/
def close (alt : Alternative) : Except Located Production :=
  match alt.symbols, alt.epsilonAt? with
  | [], _ => .ok Production.epsilon
  | X :: rest, none => .ok (X :: rest)
  | _ :: _, some span => .error (span, .mixedEpsilon)

end Alternative

/-- The alternatives that the tokens behind an arrow write, the first of them begun already. -/
def alternatives : Alternative → List Token → Except Located (List Production)
  | alt, [] => return [← alt.close]
  | alt, t :: rest =>
    match t.kind with
    | .nonterminal | .terminal =>
      alternatives { alt with symbols := alt.symbols ++ [t.symbol] } rest
    | .epsilon => alternatives { alt with epsilonAt? := some t.span } rest
    | .bar => do
      let p ← alt.close
      return p :: (← alternatives .empty rest)
    | .arrow => .error (t.span, .secondArrow)
    | .eof | .illegal | .other _ => alternatives alt rest

/-- The first illegal token. -/
def illegal? (ts : List Token) : Option Token := ts.find? fun t => t.kind = .illegal

/-- The rule that some tokens write; there is none in a blank line. -/
def ofTokens (length : Nat) (ts : List Token) :
    Except Located (Option (Symbol × List Production)) :=
  match ts with
  | [] => .ok none
  | first :: behind =>
    match illegal? ts, ts.find? fun t => t.kind = .arrow with
    | some t, _ => .error (t.span, .unexpected t.lexeme)
    | none, none => .error (⟨0, length⟩, .missingArrow)
    | none, some arrow =>
      match first.kind, behind with
      | .nonterminal, ⟨.arrow, _, _⟩ :: rest => do
        return some (first.symbol, ← alternatives .empty rest)
      | _, _ => .error (⟨first.span.start, arrow.span.start⟩, .leftSide)

/-- The rule on a line. -/
def parseLine (line : List UInt8) : Except Located (Option (Symbol × List Production)) :=
  ofTokens line.length (tokens line)

/-- The draft with the rule of a numbered line. -/
def addLine (d : Draft) (numbered : List UInt8 × Nat) : Except Error Draft :=
  match parseLine numbered.1 with
  | .error (span, fault) => .error (.rule ⟨numbered.2, span, numbered.1, fault⟩)
  | .ok none => .ok d
  | .ok (some (A, ps)) => .ok (d.define A ps)

/-- The grammar that some texts write, all of their lines taken together and numbered from one. -/
def parse (name : List UInt8) (texts : List (List UInt8)) : Except Error Grammar := do
  let d ← ((texts.flatMap Text.lines).zipIdx 1).foldlM addLine (Draft.empty name)
  d.grammar.mapError .draft

/-- The name of a grammar that is given none. -/
def defaultName : List UInt8 := Text.bytes "G"

end Lookahead.RuleText
