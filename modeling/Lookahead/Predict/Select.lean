import Lookahead.Predict.First
import Lookahead.Predict.Follow

/-!
# SELECT sets

SELECT of a rule holds the symbols by which the rule is chosen: FIRST of its right side, and, if the
right side can vanish, FOLLOW of its left side.  Two rules of a nonterminal with a common symbol are
in conflict; `ϵ` is never an input symbol and does not count.
-/

namespace Lookahead

/-- A rule with its SELECT set. -/
structure SelectSet where
  rule : Rule
  set : SymbolSet
deriving DecidableEq, Repr

namespace SelectSet

/-- The SELECT set of a rule. -/
def ofRule (first : FirstSets) (follow : FollowSets) (r : Rule) : SelectSet :=
  let behind := (follow.of? r.lhs).getD SymbolSet.empty
  if r.rhs.isEpsilon then ⟨r, behind⟩
  else
    let own := first.ofSequence r.rhs
    ⟨r, if own.contains .epsilon then own.union behind true else own⟩

/-- A SELECT set as text. -/
def text (s : SelectSet) : String :=
  "Sel(" ++ toString s.rule.serial ++ ") = " ++ s.set.text ++ "   [" ++ s.rule.text ++ "]"

end SelectSet

/-- The SELECT sets of all rules, in order. -/
structure SelectSets where
  sets : List SelectSet
deriving DecidableEq, Repr

namespace SelectSets

/-- The SELECT sets of a grammar. -/
def ofGrammar (g : Grammar) (first : FirstSets) (follow : FollowSets) : SelectSets :=
  ⟨g.rules.map (SelectSet.ofRule first follow)⟩

/-- The SELECT set of a rule, by its number. -/
def of? (sel : SelectSets) (r : Rule) : Option SymbolSet :=
  if r.serial = 0 then none else sel.sets[r.serial - 1]?.map SelectSet.set

/-- The SELECT set of a rule, empty for a rule without one. -/
def of (sel : SelectSets) (r : Rule) : SymbolSet := (sel.of? r).getD SymbolSet.empty

/-- The sets as text. -/
def lines (sel : SelectSets) : List String := sel.sets.map SelectSet.text

end SelectSets

/-- Two rules of a nonterminal, the earlier one first, and the symbols that choose both. -/
structure Conflict where
  nonterminal : Symbol
  first : Rule
  second : Rule
  symbols : List Symbol
deriving DecidableEq, Repr

namespace Conflict

/-- A conflict as text. -/
def text (c : Conflict) : String :=
  c.nonterminal.text ++ ": Sel(" ++ toString c.first.serial ++ ") ∩ Sel(" ++
    toString c.second.serial ++ ") = " ++ (SymbolSet.ofList c.symbols).text

end Conflict

namespace SelectSets

/-- The conflict between two rules of `A`, if there is one. -/
def conflict? (sel : SelectSets) (A : Symbol) (r s : Rule) : Option Conflict :=
  match ((sel.of r).intersection (sel.of s)).filter fun X => !X.isEpsilon with
  | [] => none
  | common => some ⟨A, r, s, common⟩

/-- The conflicts among rules of `A`, each rule compared with those behind it. -/
def conflictsAmong (sel : SelectSets) (A : Symbol) : List Rule → List Conflict
  | [] => []
  | r :: rest => rest.filterMap (sel.conflict? A r) ++ sel.conflictsAmong A rest

/-- All conflicts of a grammar, by nonterminal in order of definition. -/
def conflicts (g : Grammar) (sel : SelectSets) : List Conflict :=
  g.nonterminals.flatMap fun A => sel.conflictsAmong A (g.rulesFor A)

end SelectSets

end Lookahead
