import Lookahead.Grammar.Basic
import Lookahead.Saturation

/-!
# Nullable nonterminals

A nonterminal is nullable if it derives the empty word.  The nullable nonterminals are found by
passes over the rules: a rule whose right side is already known to derive the empty word makes its
left side nullable, and is kept as the witness for it.  A pass uses what it has found itself, so a
witness holds only nonterminals that were found before.
-/

namespace Lookahead

/-- The nullable nonterminals in order of discovery, each with the right side that showed it. -/
structure NullableSet where
  witnesses : List (Symbol × Production)
deriving DecidableEq, Repr

namespace NullableSet

/-- The set before anything is found. -/
def empty : NullableSet := ⟨[]⟩

/-- The nullable nonterminals in order of discovery. -/
def nonterminals (ns : NullableSet) : List Symbol := ns.witnesses.map Prod.fst

def contains (ns : NullableSet) (A : Symbol) : Bool := ns.nonterminals.contains A

def size (ns : NullableSet) : Nat := ns.witnesses.length

/-- The right side that showed a nonterminal to be nullable. -/
def witness? (ns : NullableSet) (A : Symbol) : Option Production := ns.witnesses.lookup A

/-- Whether a production is known to derive the empty word. -/
def derivesEmpty (ns : NullableSet) (p : Production) : Bool := p.isEpsilon || p.all ns.contains

/-- Takes up the left side of a rule if it is new and its right side derives the empty word. -/
def visit (ns : NullableSet) (r : Rule) : NullableSet :=
  if !ns.contains r.lhs && ns.derivesEmpty r.rhs then ⟨ns.witnesses ++ [(r.lhs, r.rhs)]⟩ else ns

/-- One pass over the rules. -/
def pass (rules : List Rule) (ns : NullableSet) : NullableSet := rules.foldl visit ns

/-- The nullable nonterminals of a grammar.  Every pass but the last finds one of the defined
nonterminals. -/
def ofGrammar (g : Grammar) : NullableSet :=
  saturate (pass g.rules) size (g.nonterminals.length + 1) empty

/-- The witnesses as rules, in order of discovery. -/
def lines (ns : NullableSet) : List String :=
  ns.witnesses.map fun w => w.1.text ++ " → " ++ w.2.text

end NullableSet

end Lookahead
