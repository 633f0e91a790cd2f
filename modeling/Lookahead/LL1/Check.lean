import Lookahead.LL1.Violation
import Lookahead.Saturation
import Lookahead.SymbolSet

/-!
# The LL(1) check

A quick check that looks at nothing but the first symbol of each production.  The lead of a
production is that symbol, or, if it is a nonterminal, the leads of all productions of that
nonterminal.  A grammar passes if no rule begins with its own left side and no two rules of a
nonterminal share a lead other than `ϵ`.  Nullable symbols are not looked through and nothing behind
a nonterminal is considered, so a grammar can pass and still have conflicts.
-/

namespace Lookahead.Grammar

variable (g : Grammar)

/-! ### Leads -/

/-- The first symbols of the productions of `A`. -/
def frontSymbols (A : Symbol) : List Symbol := (g.productions A).filterMap List.head?

/-- Adds the nonterminals that stand in front of a production of a nonterminal seen before. -/
def leadPass (seen : List Symbol) : List Symbol :=
  (seen ++ (seen.flatMap g.frontSymbols).filter Symbol.isNonterminal).eraseDups

/-- The nonterminals that can come in front when `A` is expanded there, beginning with `A`.  There
are 26 of them at most. -/
def leadNonterminals (A : Symbol) : List Symbol := saturate g.leadPass List.length 27 [A]

/-- The symbols other than nonterminals that can come in front of `A`. -/
def leadsOf (A : Symbol) : SymbolSet :=
  .ofList (((g.leadNonterminals A).flatMap g.frontSymbols).filter fun X => !X.isNonterminal)

/-- The leads of a production. -/
def leads : Production → SymbolSet
  | [] => SymbolSet.empty
  | X :: _ => if X.isNonterminal then g.leadsOf X else SymbolSet.ofList [X]

/-! ### Violations -/

/-- The smallest lead other than `ϵ` that an earlier rule has as well, and that rule. -/
def sharedLead? (earlier : List (Rule × SymbolSet)) (own : SymbolSet) : Option (Symbol × Rule) :=
  own.toList.findSome? fun X =>
    if X.isEpsilon then none
    else (earlier.find? fun e => e.2.contains X).map fun e => (X, e.1)

/-- The first rule of `A` that shares a lead with an earlier one. -/
def commonPrefix? (A : Symbol) (earlier : List (Rule × SymbolSet)) :
    List (Rule × SymbolSet) → Option Violation
  | [] => none
  | (r, own) :: rest =>
    match sharedLead? earlier own with
    | some (X, other) => some (.commonPrefix A other r X)
    | none => commonPrefix? A (earlier ++ [(r, own)]) rest

/-- The first rule of `A` that begins with `A`. -/
def leftRecursion? (A : Symbol) : Option Violation :=
  ((g.rulesFor A).find? fun r => r.rhs.head? = some A).map (.leftRecursion A)

/-- What is wrong with the rules of `A`. -/
def violationOf? (A : Symbol) : Option Violation :=
  (g.leftRecursion? A).or (commonPrefix? A [] ((g.rulesFor A).map fun r => (r, g.leads r.rhs)))

/-- What is wrong with the first nonterminal that fails the check. -/
def violation? : Option Violation := g.nonterminals.findSome? g.violationOf?

end Lookahead.Grammar
