import Lookahead.Grammar.Basic

/-!
# Violations of LL(1)

Why a grammar is refused before analysis: a rule begins with its own left side, or two rules of a
nonterminal can begin with the same symbol.  A violation keeps the rules it is about, as far as they
are known.
-/

namespace Lookahead

/-- The kind of a violation. -/
inductive ViolationKind where
  /-- A rule begins with its own left side. -/
  | leftRecursion
  /-- Two alternatives can begin with the same symbol. -/
  | commonPrefix
  /-- A kind without a description, by its number. -/
  | other (code : Int8)
deriving DecidableEq, Repr

namespace ViolationKind

def ofCode (code : Int8) : ViolationKind :=
  if code = 1 then .leftRecursion
  else if code = 2 then .commonPrefix
  else .other code

def code : ViolationKind → Int8
  | .leftRecursion => 1
  | .commonPrefix => 2
  | .other code => code

end ViolationKind

/-- Why a grammar is not LL(1). -/
structure Violation where
  kind : ViolationKind
  nonterminal : Symbol
  /-- The offending rule. -/
  rule? : Option Rule
  /-- The rule that the offending one conflicts with. -/
  other? : Option Rule
  /-- The symbol with which both can begin. -/
  symbol : Symbol
deriving DecidableEq, Repr

namespace Violation

/-- A rule that begins with its own left side. -/
def leftRecursion (A : Symbol) (r : Rule) : Violation := ⟨.leftRecursion, A, some r, none, .absent⟩

/-- Two rules that can begin with `X`, the earlier one first. -/
def commonPrefix (A : Symbol) (other r : Rule) (X : Symbol) : Violation :=
  ⟨.commonPrefix, A, some r, some other, X⟩

/-- The right side of a rule as text, empty for an unknown rule. -/
def sideText (r? : Option Rule) : String :=
  match r? with
  | some r => r.rhs.text
  | none => ""

/-- A rule as text, with a mark for an unknown rule. -/
def ruleText (r? : Option Rule) : String :=
  match r? with
  | some r => r.text
  | none => "<nil>"

def message (v : Violation) : String :=
  match v.kind with
  | .leftRecursion =>
    "grammar is not LL(1): direct left recursion detected in rule " ++ ruleText v.rule?
  | .commonPrefix =>
    "grammar is not LL(1): productions for " ++ v.nonterminal.text ++
      " have a common prefix " ++ v.symbol.text ++
      " (" ++ sideText v.other? ++ " | " ++ sideText v.rule? ++ ")"
  | .other _ => "grammar is not LL(1)"

end Violation

end Lookahead
