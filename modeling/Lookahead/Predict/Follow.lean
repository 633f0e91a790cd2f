import Lookahead.Nullability
import Lookahead.Predict.SetTable
import Lookahead.Relation.Basic

/-!
# FOLLOW sets

FOLLOW of a nonterminal holds the terminals that may come right behind it, and the end marker if it
may stand last.  Only nullable nonterminals have one: for the others, what follows never decides
which rule to take.
-/

namespace Lookahead

/-- The FOLLOW sets of the nullable nonterminals. -/
structure FollowSets where
  table : SetTable
deriving DecidableEq, Repr

namespace FollowSets

/-- Adds what follows a nonterminal, if it has a set. -/
def visit (t : SetTable) (p : Pair) : SetTable :=
  if t.keys.contains p.left && (p.right.isTerminal || p.right.isEndMarker) then
    t.insert p.left [p.right]
  else t

/-- The FOLLOW sets that a relation `FB` gives to the nullable nonterminals of a grammar. -/
def ofGrammar (g : Grammar) (ns : NullableSet) (fb : Relation) : FollowSets :=
  ⟨fb.pairs.foldl visit (SetTable.ofKeys (g.referenced.filter ns.contains))⟩

/-- FOLLOW of a nonterminal, if it is nullable. -/
def of? (fs : FollowSets) (A : Symbol) : Option SymbolSet := fs.table.get? A

/-- The sets as text. -/
def lines (fs : FollowSets) : List String := fs.table.lines "Fol"

end FollowSets

end Lookahead
