import Lookahead.SymbolSet

/-!
# Tables of symbol sets

A table keeps a set of symbols for each of some symbols, in the order in which these were entered.
-/

namespace Lookahead

/-- Symbols with their sets, in order of entry. -/
structure SetTable where
  rows : List (Symbol × SymbolSet)
deriving DecidableEq, Repr

namespace SetTable

/-- The table without rows. -/
def empty : SetTable := ⟨[]⟩

/-- The table with an empty set for each of the given symbols. -/
def ofKeys (keys : List Symbol) : SetTable := ⟨keys.map fun A => (A, SymbolSet.empty)⟩

/-- The symbols that have a set, in order of entry. -/
def keys (t : SetTable) : List Symbol := t.rows.map Prod.fst

/-- The set of a symbol, if it has one. -/
def get? (t : SetTable) (A : Symbol) : Option SymbolSet := t.rows.lookup A

/-- The set of a symbol, empty if it has none. -/
def getD (t : SetTable) (A : Symbol) : SymbolSet := (t.get? A).getD SymbolSet.empty

/-- Adds symbols to the set of `A` among some rows, entering `A` if it is new. -/
def insertRow (A : Symbol) (syms : List Symbol) :
    List (Symbol × SymbolSet) → List (Symbol × SymbolSet)
  | [] => [(A, SymbolSet.ofList syms)]
  | (B, S) :: rest =>
    if B = A then (B, S.insertAll syms) :: rest else (B, S) :: insertRow A syms rest

/-- Adds symbols to the set of `A`, entering `A` if it is new. -/
def insert (t : SetTable) (A : Symbol) (syms : List Symbol) : SetTable := ⟨insertRow A syms t.rows⟩

/-- The number of symbols in all sets together. -/
def size (t : SetTable) : Nat := t.rows.foldr (fun row n => row.2.size + n) 0

/-- The rows as text, each set behind its symbol in the form `name(symbol) = set`. -/
def lines (t : SetTable) (name : String) : List String :=
  t.rows.map fun row => name ++ "(" ++ row.1.text ++ ") = " ++ row.2.text

end SetTable

end Lookahead
