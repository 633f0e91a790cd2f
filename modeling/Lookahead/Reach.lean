import Lookahead.Neighbours
import Lookahead.Relation.Closure

/-!
# Reach

What neighbours reach in any number of steps.  `BW` and `EO` are the closures of `BDW` and `DEO`,
each over its own universe, and `FB` joins the two by adjacency: `X` ends some `A`, `A` is directly
followed by some `Y`, and `Y` begins with `Z`.  A nonterminal that ends the start symbol is followed
by the end of input.
-/

namespace Lookahead.Grammar

/-- `A BW X`: the closure of `BDW`, reflexive over its left sides and the terminals. -/
def beginsWith (g : Grammar) (bdw : Relation) : Relation :=
  bdw.close .beginsWith (bdw.lefts ++ g.terminals)

/-- All nonterminals, the defined ones first, and all terminals. -/
def endUniverse (g : Grammar) : List Symbol :=
  g.nonterminals ++ (g.referenced.filter fun A => !g.defines A) ++ g.terminals

/-- `X EO A`: the closure of `DEO`, reflexive over all symbols of the grammar. -/
def ends (g : Grammar) (deo : Relation) : Relation := deo.close .ends g.endUniverse

end Lookahead.Grammar

namespace Lookahead.Relation

/-- The nonterminals that end `start`, each with the end marker. -/
def lastOf (eo : Relation) (start : Symbol) : List Pair :=
  (eo.pairs.filter fun p => p.right = start ∧ p.left.isNonterminal).map fun p =>
    ⟨p.left, .endMarker⟩

/-- `X FB Z`: `Z` may come right behind `X`. -/
def followedBy (eo fdb bw : Relation) (start : Symbol) : Relation :=
  (compose .followedBy [eo, fdb, bw]).insertAll (eo.lastOf start) .direct

end Lookahead.Relation
