import Lookahead.Grammar.Basic
import Lookahead.Symbol.Letter

/-!
# Drafts

A grammar is built from a draft, definition by definition.  Defining a nonterminal again appends
alternatives to those it has.  A draft remembers its first fault for good: a left side that is no
nonterminal, or an alternative that no grammar may hold.  The alternatives at fault are left out and
the draft goes on, but no grammar comes of it.

`fault?_eq_none_iff` says that a production is without fault exactly when it is proper, so the
definitions of a draft are always those of a grammar.
-/

namespace Lookahead

/-- What is wrong with an alternative. -/
inductive ProductionFault where
  | endMarker
  | mixedEpsilon
  | absentSymbol
deriving DecidableEq, Repr

namespace ProductionFault

def message : ProductionFault → String
  | .endMarker => "end marker not allowed in productions"
  | .mixedEpsilon => "ϵ mixed with other symbols"
  | .absentSymbol => "invalid symbol"

end ProductionFault

namespace Production

/-- What is wrong with one symbol of a production. -/
def symbolFault? (p : Production) (X : Symbol) : Option ProductionFault :=
  if X.isEndMarker then some .endMarker
  else if X.isEpsilon && decide (1 < p.length) then some .mixedEpsilon
  else if X.isAbsent then some .absentSymbol
  else none

/-- What is wrong with the first symbol at fault. -/
def fault? (p : Production) : Option ProductionFault := p.findSome? p.symbolFault?

theorem symbolFault?_eq_none_iff {p : Production} {X : Symbol} :
    p.symbolFault? X = none ↔
      X.isNonterminal ∨ X.isTerminal ∨ (X = .epsilon ∧ p.length ≤ 1) := by
  cases X <;>
    simp [symbolFault?, Symbol.isEndMarker, Symbol.isEpsilon, Symbol.isAbsent,
      Symbol.isNonterminal, Symbol.isTerminal]

/-- A production is without fault exactly when a grammar may hold it. -/
theorem fault?_eq_none_iff {p : Production} : p.fault? = none ↔ p.Proper := by
  unfold fault? Proper epsilon
  rw [List.findSome?_eq_none_iff]
  simp only [symbolFault?_eq_none_iff]
  constructor
  · intro h
    match p with
    | [] => right; simp
    | [X] =>
      rcases h X (by simp) with hX | hX | ⟨rfl, _⟩
      · right; simpa using Or.inl hX
      · right; simpa using Or.inr hX
      · left; rfl
    | X :: Y :: rest =>
      right
      intro Z hZ
      rcases h Z hZ with hZ | hZ | ⟨_, hlen⟩
      · exact Or.inl hZ
      · exact Or.inr hZ
      · simp at hlen
  · rintro (rfl | h) X hX
    · right; right; simpa using hX
    · rcases h X hX with hX | hX
      · exact Or.inl hX
      · exact Or.inr (Or.inl hX)

end Production

namespace Definition

/-- The definitions with more alternatives for `A`, which stands last if it is new. -/
def extend (A : Symbol) (ps : List Production) : List Definition → List Definition
  | [] => [⟨A, ps⟩]
  | d :: rest =>
    if d.lhs = A then ⟨A, d.alternatives ++ ps⟩ :: rest else d :: extend A ps rest

theorem map_lhs_extend (A : Symbol) (ps : List Production) (ds : List Definition) :
    (extend A ps ds).map Definition.lhs =
      if A ∈ ds.map Definition.lhs then ds.map Definition.lhs
      else ds.map Definition.lhs ++ [A] := by
  induction ds with
  | nil => simp [extend]
  | cons d rest ih =>
    unfold extend
    by_cases h : d.lhs = A
    · simp [h]
    · have h' : A ≠ d.lhs := fun e => h e.symm
      simp only [h, if_false, List.map_cons, ih, List.mem_cons, h', false_or]
      split <;> simp

/-- Every alternative of an extended list is an old one or a new one of `A`. -/
theorem mem_extend {A : Symbol} {ps : List Production} {ds : List Definition} {d : Definition}
    (h : d ∈ extend A ps ds) :
    d ∈ ds ∨ d.lhs = A ∧
      ∀ p ∈ d.alternatives, p ∈ ps ∨ ∃ e ∈ ds, p ∈ e.alternatives := by
  induction ds with
  | nil =>
    rw [extend, List.mem_singleton] at h
    subst h
    exact Or.inr ⟨rfl, fun p hp => Or.inl hp⟩
  | cons e rest ih =>
    rw [extend] at h
    split at h
    · rcases List.mem_cons.mp h with rfl | h
      · refine Or.inr ⟨rfl, fun p hp => ?_⟩
        rcases List.mem_append.mp hp with hp | hp
        · exact Or.inr ⟨e, by simp, hp⟩
        · exact Or.inl hp
      · exact Or.inl (List.mem_cons_of_mem _ h)
    · rcases List.mem_cons.mp h with rfl | h
      · exact Or.inl (by simp)
      · rcases ih h with h | ⟨hlhs, h⟩
        · exact Or.inl (List.mem_cons_of_mem _ h)
        · refine Or.inr ⟨hlhs, fun p hp => ?_⟩
          rcases h p hp with hp | ⟨f, hf, hp⟩
          · exact Or.inl hp
          · exact Or.inr ⟨f, List.mem_cons_of_mem _ hf, hp⟩

/-- Proper alternatives for a nonterminal keep definitions well formed. -/
theorem WellFormed.extend {ds : List Definition} (h : WellFormed ds) {A : Symbol}
    (hA : A.isNonterminal) {ps : List Production} (hps : ∀ p ∈ ps, p.Proper) :
    WellFormed (extend A ps ds) where
  nodup := by
    rw [map_lhs_extend]
    split
    · exact h.nodup
    · rename_i hmem
      rw [List.nodup_append]
      refine ⟨h.nodup, by simp, fun X hX Y hY e => ?_⟩
      rw [List.mem_singleton] at hY
      exact hmem (hY ▸ e ▸ hX)
  nonterminal := by
    intro d hd
    rcases mem_extend hd with hd | ⟨rfl, _⟩
    · exact h.nonterminal d hd
    · exact hA
  proper := by
    intro d hd p hp
    rcases mem_extend hd with hd | ⟨_, hall⟩
    · exact h.proper d hd p hp
    · rcases hall p hp with hp | ⟨e, he, hp⟩
      · exact hps p hp
      · exact h.proper e he p hp

end Definition

/-- Why no grammar comes of a draft. -/
inductive DraftError where
  /-- The left side of a definition is no nonterminal. -/
  | leftSide (lhs : Symbol)
  /-- An alternative is at fault. -/
  | production (lhs : Symbol) (rhs : Production) (fault : ProductionFault)
  /-- Nothing is defined. -/
  | empty
deriving DecidableEq, Repr

namespace DraftError

def message : DraftError → String
  | .leftSide lhs =>
    "malformed grammar rule: left hand side " ++ Text.quote lhs.text ++ " is not a non-terminal"
  | .production lhs rhs fault =>
    "malformed grammar rule: " ++ lhs.text ++ " -> " ++ rhs.text ++ ": " ++ fault.message
  | .empty => "grammar input cannot be empty"

end DraftError

/-- A grammar in the making. -/
structure Draft where
  name : List UInt8
  definitions : List Definition
  /-- The first fault so far. -/
  fault? : Option DraftError
  wellFormed : Definition.WellFormed definitions

namespace Draft

/-- The draft in which nothing is defined. -/
def empty (name : List UInt8) : Draft := ⟨name, [], none, Definition.wellFormed_nil⟩

/-- The draft with a fault, unless it has one already. -/
def fail (d : Draft) (fault : DraftError) : Draft :=
  { d with fault? := d.fault?.or (some fault) }

/-- The first fault among the alternatives for `A`. -/
def faultAmong? (A : Symbol) (ps : List Production) : Option DraftError :=
  ps.findSome? fun p => p.fault?.map (.production A p)

/-- Appends alternatives for `A`, leaving out those at fault. -/
def define (d : Draft) (A : Symbol) (ps : List Production) : Draft :=
  if h : A.isNonterminal then
    { name := d.name
      definitions := Definition.extend A (ps.filter fun p => p.fault?.isNone) d.definitions
      fault? := d.fault?.or (faultAmong? A ps)
      wellFormed := d.wellFormed.extend h fun p hp => by
        rw [List.mem_filter, Option.isNone_iff_eq_none, Production.fault?_eq_none_iff] at hp
        exact hp.2 }
  else
    d.fail (.leftSide A)

/-- The grammar of a draft, or the first fault. -/
def grammar (d : Draft) : Except DraftError Grammar :=
  match d.fault? with
  | some fault => .error fault
  | none =>
    if d.definitions.isEmpty then .error .empty
    else .ok ⟨d.name, d.definitions, d.wellFormed⟩

/-! ### Rules letter by letter -/

/-- A symbol asked for by its letter. -/
inductive Item where
  | nonterminal (c : Char)
  | terminal (c : Char)
deriving DecidableEq, Repr

/-- The symbol of an item. -/
def Item.symbol : Item → Except LetterError Symbol
  | .nonterminal c => Symbol.nonterminalOf c
  | .terminal c => Symbol.terminalOf c

/-- How a rule written letter by letter is finished. -/
inductive Finish where
  /-- The rule is defined as it was written. -/
  | asWritten
  /-- The rule is defined as `ϵ`, whatever was written. -/
  | asEpsilon
  /-- The rule is given up. -/
  | abandoned
deriving DecidableEq, Repr

/-- Writes one rule letter by letter.  A letter of the wrong kind leaves the draft as it is. -/
def write (d : Draft) (lhs : Char) (items : List Item) (finish : Finish) :
    Except LetterError Draft := do
  let A ← Symbol.nonterminalOf lhs
  let rhs ← items.mapM Item.symbol
  match finish with
  | .asWritten => return d.define A [rhs]
  | .asEpsilon => return d.define A [Production.epsilon]
  | .abandoned => return d

end Draft

end Lookahead
