import Lookahead.Nullability
import Lookahead.Predict.SetTable
import Lookahead.Relation.Basic

/-!
# FIRST sets

FIRST of a sequence of symbols holds the terminals that its words can begin with, and `ϵ` if it
derives the empty word.  The FIRST sets of the nonterminals are found by passes over the rules, and
the terminals that a nonterminal begins with by relation are added at the end.
-/

namespace Lookahead

/-- The FIRST sets of nonterminals, with the nullable ones they rest on. -/
structure FirstSets where
  table : SetTable
  nullable : NullableSet
deriving DecidableEq, Repr

namespace FirstSets

/-- FIRST of symbols that follow one another, without regard to a written `ϵ`. -/
def ofSymbols (fs : FirstSets) : List Symbol → SymbolSet
  | [] => SymbolSet.ofList [.epsilon]
  | X :: rest =>
    if X.isTerminal then SymbolSet.ofList [X]
    else if X.isNonterminal then
      let own := SymbolSet.empty.union (fs.table.getD X) false
      if fs.nullable.contains X then own.union (fs.ofSymbols rest) true else own
    else fs.ofSymbols rest

/-- FIRST of a sequence of symbols, by the sets known so far. -/
def ofSequence (fs : FirstSets) (p : Production) : SymbolSet :=
  if p.isEpsilon then SymbolSet.ofList [.epsilon] else fs.ofSymbols p

/-- Adds FIRST of the right side of a rule to the set of its left side. -/
def visit (fs : FirstSets) (r : Rule) : FirstSets :=
  { fs with table := fs.table.insert r.lhs (fs.ofSequence r.rhs).toList }

/-- One pass over the rules. -/
def pass (rules : List Rule) (fs : FirstSets) : FirstSets := rules.foldl visit fs

/-- The number of symbols in all sets together. -/
def size (fs : FirstSets) : Nat := fs.table.size

/-- The FIRST sets that follow from the productions.  Every pass but the last adds one of the 26
terminals or `ϵ` to the set of a defined nonterminal. -/
def ofProductions (g : Grammar) (ns : NullableSet) : FirstSets :=
  saturate (pass g.rules) size (27 * g.nonterminals.length + 1)
    ⟨SetTable.ofKeys g.nonterminals, ns⟩

/-- Adds the terminals that nonterminals begin with. -/
def addBeginnings (fs : FirstSets) (bw : Relation) : FirstSets :=
  let found := bw.pairs.filter fun p => p.left.isNonterminal && p.right.isTerminal
  { fs with table := found.foldl (fun t p => t.insert p.left [p.right]) fs.table }

/-- The FIRST sets of a grammar. -/
def ofGrammar (g : Grammar) (ns : NullableSet) (bw : Relation) : FirstSets :=
  (ofProductions g ns).addBeginnings bw

/-- FIRST of a single symbol. -/
def of (fs : FirstSets) (A : Symbol) : SymbolSet :=
  if A.isTerminal || A.isEpsilon then SymbolSet.ofList [A] else fs.table.getD A

/-- The sets as text. -/
def lines (fs : FirstSets) : List String := fs.table.lines "First"

end FirstSets

end Lookahead
