import Lookahead.Nullability
import Lookahead.Relation.Basic

/-!
# Neighbours in productions

Three relations can be read off the productions of a grammar once the nullable nonterminals are
known: which symbols a nonterminal directly begins with, which symbols directly follow a
nonterminal, and which symbols directly end a nonterminal.  In each case nullable symbols are looked
through: a scan goes on behind a nullable symbol and stops behind any other.

The set of nullable nonterminals need not be that of the grammar.
-/

namespace Lookahead

/-! ### Scans of one production -/

namespace NullableSet

variable (ns : NullableSet)

/-- The symbols up to and including the first one that is not nullable. -/
def reachable : List Symbol → List Symbol
  | [] => []
  | X :: rest => X :: if ns.contains X then reachable rest else []

/-- Each nonterminal of a production with the symbols that can be reached behind it. -/
def adjacent : Production → List Pair
  | [] => []
  | X :: rest =>
    (if X.isNonterminal then (ns.reachable rest).map fun Y => ⟨X, Y⟩ else []) ++ adjacent rest

/-- The nullable symbols of a production that stand right before a terminal, with that terminal. -/
def beforeTerminals : Production → List Pair
  | X :: Y :: rest =>
    (if ns.contains X && Y.isTerminal then [⟨X, Y⟩] else []) ++ beforeTerminals (Y :: rest)
  | _ => []

end NullableSet

namespace Rule

variable (r : Rule) (ns : NullableSet)

/-- The left side with the symbols that can be reached at the front of the right side. -/
def beginnings : List Pair := (ns.reachable r.rhs).map fun X => ⟨r.lhs, X⟩

/-- The symbols that can be reached at the end of the right side, with the left side; a nullable
left side ends itself. -/
def endings : List Pair :=
  ((ns.reachable r.rhs.reverse).map fun X => ⟨X, r.lhs⟩) ++
    if ns.contains r.lhs then [⟨r.lhs, r.lhs⟩] else []

end Rule

/-! ### The relations -/

namespace Grammar

variable (g : Grammar) (ns : NullableSet)

/-- The rules that say more than `ϵ`. -/
def writtenRules : List Rule := g.rules.filter fun r => !r.rhs.isEpsilon

/-- `A BDW X`: `A` directly begins with `X`. -/
def beginsDirectlyWith : Relation :=
  .ofPairs .beginsDirectlyWith (g.writtenRules.flatMap fun r => r.beginnings ns)

/-- `X FDB Y`: `X` is directly followed by `Y`. -/
def followedDirectlyBy : Relation :=
  .ofPairs .followedDirectlyBy (g.rules.flatMap fun r => ns.adjacent r.rhs)

/-- The nullable symbols right before a terminal, with that terminal, in increasing order. -/
def endAdjacency : List Pair :=
  Pair.sort (g.writtenRules.flatMap fun r => ns.beforeTerminals r.rhs).eraseDups

/-- `X DEO A`: `X` directly ends `A`.  On demand a nullable symbol right before a terminal counts
as an end of that terminal.  The pairs come in increasing order. -/
def directlyEnds (adjacentEnds : Bool) : Relation :=
  .ofPairs .directlyEnds (Pair.sort ((g.writtenRules.flatMap fun r => r.endings ns) ++
    if adjacentEnds then g.endAdjacency ns else []))

end Grammar

end Lookahead
