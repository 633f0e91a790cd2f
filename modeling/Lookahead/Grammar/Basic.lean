import Lookahead.Symbol

/-!
# Grammars

A grammar defines nonterminals.  Each definition lists the alternatives of one nonterminal, and the
alternatives of all definitions, read in order, are the rules, numbered from one.  An alternative is
a sequence of nonterminals and terminals, or the single symbol `ϵ`.  The sequence without symbols is
allowed as well: it stands for the empty word just as `ϵ` does, but it is not the same alternative.

A nonterminal may occur without a definition; it then has no rules.
-/

namespace Lookahead

/-- The right side of a rule. -/
abbrev Production := List Symbol

namespace Production

/-- The production that is written `ϵ`. -/
def epsilon : Production := [.epsilon]

/-- Whether a production is the one written `ϵ`. -/
def isEpsilon : Production → Bool
  | [.epsilon] => true
  | _ => false

/-- A production as text, one character for each symbol. -/
def text (p : Production) : String := String.ofList (p.map Symbol.char)

/-- A production that a grammar may hold. -/
def Proper (p : Production) : Prop :=
  p = epsilon ∨ ∀ X ∈ p, X.isNonterminal ∨ X.isTerminal

instance (p : Production) : Decidable p.Proper := inferInstanceAs (Decidable (_ ∨ _))

@[simp] theorem isEpsilon_iff {p : Production} : p.isEpsilon = true ↔ p = epsilon := by
  unfold isEpsilon epsilon
  split
  · simp
  · rename_i h
    simp only [Bool.false_eq_true, false_iff]
    exact h

end Production

/-- A numbered rule: one alternative of a nonterminal. -/
structure Rule where
  /-- The place of the rule among all rules, counted from one. -/
  serial : Nat
  lhs : Symbol
  rhs : Production
deriving DecidableEq, Repr

namespace Rule

/-- A rule as text, `A → α`. -/
def text (r : Rule) : String := r.lhs.text ++ " → " ++ r.rhs.text

end Rule

/-- A nonterminal with its alternatives. -/
structure Definition where
  lhs : Symbol
  alternatives : List Production
deriving DecidableEq, Repr

namespace Definition

/-- A definition as a line of text, `A -> α | β`. -/
def text (d : Definition) : String :=
  d.lhs.text ++ " -> " ++ " | ".intercalate (d.alternatives.map Production.text)

/-- Definitions as a grammar holds them: each nonterminal once, and proper alternatives. -/
structure WellFormed (ds : List Definition) : Prop where
  nodup : (ds.map Definition.lhs).Nodup
  nonterminal : ∀ d ∈ ds, d.lhs.isNonterminal
  proper : ∀ d ∈ ds, ∀ p ∈ d.alternatives, p.Proper

theorem wellFormed_nil : WellFormed [] :=
  ⟨List.nodup_nil, by simp, by simp⟩

end Definition

/-- A grammar with a name and its definitions in order. -/
structure Grammar where
  name : List UInt8
  definitions : List Definition
  wellFormed : Definition.WellFormed definitions

namespace Grammar

/-- The grammar that defines nothing. -/
def empty (name : List UInt8) : Grammar := ⟨name, [], Definition.wellFormed_nil⟩

/-- Whether a grammar defines nothing. -/
def isEmpty (g : Grammar) : Bool := g.definitions.isEmpty

/-! ### Rules -/

/-- Left and right sides of all rules, in order. -/
def sides (g : Grammar) : List (Symbol × Production) :=
  g.definitions.flatMap fun d => d.alternatives.map fun p => (d.lhs, p)

/-- All rules, in order. -/
def rules (g : Grammar) : List Rule :=
  (g.sides.zipIdx 1).map fun entry => ⟨entry.2, entry.1.1, entry.1.2⟩

/-- The number of rules. -/
def size (g : Grammar) : Nat := g.rules.length

/-- The rule with a number. -/
def rule? (g : Grammar) (i : Int) : Option Rule :=
  if i < 1 then none else g.rules[(i - 1).toNat]?

/-- The rules of a nonterminal. -/
def rulesFor (g : Grammar) (A : Symbol) : List Rule := g.rules.filter fun r => r.lhs = A

/-- The alternatives of a nonterminal. -/
def productions (g : Grammar) (A : Symbol) : List Production := (g.rulesFor A).map Rule.rhs

/-! ### Symbols -/

/-- The nonterminals with a definition, in order. -/
def nonterminals (g : Grammar) : List Symbol := g.definitions.map Definition.lhs

/-- Whether a nonterminal has a definition. -/
def defines (g : Grammar) (A : Symbol) : Bool := g.nonterminals.contains A

/-- All symbols as they are met when each nonterminal is read before its alternatives. -/
def occurrences (g : Grammar) : List Symbol :=
  g.definitions.flatMap fun d => d.lhs :: d.alternatives.flatten

/-- The nonterminals that occur, defined or not, in order of first appearance. -/
def referenced (g : Grammar) : List Symbol :=
  (g.occurrences.filter Symbol.isNonterminal).eraseDups

/-- The terminals that occur, in order of first appearance. -/
def terminals (g : Grammar) : List Symbol :=
  (g.occurrences.filter Symbol.isTerminal).eraseDups

/-! ### Text -/

/-- The grammar in the notation of rule text, a line for each definition. -/
def lines (g : Grammar) : List String := g.definitions.map Definition.text

/-- The fingerprint under a digest: a version mark and the digest of the lines. -/
def fingerprint (digest : String → String) (g : Grammar) : String :=
  let quoted := g.lines.map fun l => "\"" ++ l ++ "\""
  "v1_" ++ digest ("\x7bRules:[" ++ ",".intercalate quoted ++ "]\x7d")

end Grammar

end Lookahead
