import Lookahead.Proofs.First

/-!
# FIRST by productions and FIRST by relation

FIRST of a nonterminal is found twice: by passes over the rules, and as the terminals that `BW`
relates the nonterminal to.  What the passes end with holds the same terminals
(`mem_table_iff_relates`), so every symbol that is then added by relation is there already.  Since
`BW` begins at left sides of rules, the nonterminal that it is added to has a set, and neither the
sets nor their order change (`addBeginnings_ofProductions`).

Nothing of this needs the nullable nonterminals to be those of the grammar.

**Agreement** (`productions_agree_with_relation`).  Over the nullable nonterminals of any grammar,
the two ways give the same terminals, and FIRST with the terminals added by relation is FIRST by
productions.
-/

namespace Lookahead

namespace FirstSets

variable {g : Grammar} {ns : NullableSet} {A t : Symbol}

/-- The last pass adds nothing. -/
theorem pass_ofProductions (hns : ns.OnlyNonterminals) :
    pass g.rules (ofProductions g ns) = ofProductions g ns :=
  foldl_eq_self fun _ hr => visit_ofProductions hns hr

/-- The terminals that the passes find are those that the nonterminal begins with by relation. -/
theorem mem_table_iff_relates (hns : ns.OnlyNonterminals) (hA : A.isNonterminal)
    (ht : t.isTerminal) :
    t ∈ (ofProductions g ns).table.getD A ↔
      (g.beginsWith (g.beginsDirectlyWith ns)).Relates A t := by
  rw [mem_table_ofProductions hns, relates_beginsWith_terminal hA ht, Predicted]
  simp [ht, Symbol.ne_epsilon_of_isTerminal ht]

/-- What begins with a terminal by relation has rules. -/
theorem mem_nonterminals_of_relates (hA : A.isNonterminal) (ht : t.isTerminal)
    (h : (g.beginsWith (g.beginsDirectlyWith ns)).Relates A t) : A ∈ g.nonterminals := by
  obtain ⟨X, hAX, -⟩ :=
    Relation.TransGen.head'_iff.mp ((relates_beginsWith_terminal hA ht).mp h)
  exact hAX.kind.1

/-- Where no pair has anything to add, nothing is added. -/
theorem addBeginnings_eq_self {fs : FirstSets} {bw : Relation}
    (h : ∀ A t, bw.Relates A t → A.isNonterminal → t.isTerminal →
      fs.table.insert A [t] = fs.table) : fs.addBeginnings bw = fs := by
  obtain ⟨table, nullable⟩ := fs
  refine congrArg (FirstSets.mk · nullable) (foldl_eq_self fun p hp => ?_)
  obtain ⟨hmem, hkind⟩ := List.mem_filter.mp hp
  rw [Bool.and_eq_true] at hkind
  exact h p.left p.right hmem hkind.1 hkind.2

/-- **Nothing is added by relation.** -/
theorem addBeginnings_ofProductions (hns : ns.OnlyNonterminals) :
    (ofProductions g ns).addBeginnings (g.beginsWith (g.beginsDirectlyWith ns)) =
      ofProductions g ns := by
  have hwithin : Within g ns (ofProductions g ns) := within_ofProductions hns
  have hordered : (ofProductions g ns).table.Each SymbolSet.Ordered :=
    fun row hrow => (hwithin.predictive row hrow).1
  refine addBeginnings_eq_self fun A t hbw hA ht => ?_
  have hkey : A ∈ (ofProductions g ns).table.keys := by
    rw [hwithin.keys]
    exact mem_nonterminals_of_relates hA ht hbw
  refine hordered.insert_eq_self hkey fun X hX => ?_
  obtain rfl := List.mem_singleton.mp hX
  exact (mem_table_iff_relates hns hA ht).mpr hbw

/-- **Agreement.**  The passes end with a set for each defined nonterminal, to which another pass
would add nothing.  Its terminals are those that the nonterminal begins with by relation, and adding
these changes neither the sets nor the nonterminals that have one.  The nullable nonterminals may be
those of another grammar. -/
theorem productions_agree_with_relation (g h : Grammar) :
    let ns := NullableSet.ofGrammar h
    let bw := g.beginsWith (g.beginsDirectlyWith ns)
    pass g.rules (ofProductions g ns) = ofProductions g ns ∧
      (ofProductions g ns).table.keys = g.nonterminals ∧
      (∀ A ∈ g.nonterminals, ∀ t : Symbol, t.isTerminal →
        (t ∈ (ofProductions g ns).table.getD A ↔ bw.contains A t = true)) ∧
      ofGrammar g ns bw = ofProductions g ns := by
  have hns := NullableSet.onlyNonterminals_ofGrammar h
  refine ⟨pass_ofProductions hns, (within_ofProductions hns).keys, fun A hA t ht => ?_,
    addBeginnings_ofProductions hns⟩
  rw [Relation.contains_iff]
  exact mem_table_iff_relates hns (Grammar.isNonterminal_of_mem_nonterminals hA) ht

end FirstSets

/-- `S → Ab`, `A → a`, as a draft: nothing is nullable. -/
def Draft.solidFront : Draft :=
  ((Draft.empty (Text.bytes "G")).define (.ofChar 'S') [Symbol.word "Ab"]).define (.ofChar 'A')
    [Symbol.word "a"]

/-- `S → Ab`, `A → a`. -/
def Grammar.solidFront : Grammar :=
  ⟨Text.bytes "G", Draft.solidFront.definitions, Draft.solidFront.wellFormed⟩

/-- Over the nullable nonterminals of another grammar, among which is `A`, the passes find `b` for
`S`, as the relation does. -/
theorem FirstSets.solidFront_mem_table :
    .ofChar 'S' ∈ Grammar.solidFront.nonterminals ∧ (Symbol.ofChar 'b').isTerminal ∧
      .ofChar 'b' ∈ (ofProductions .solidFront
        (NullableSet.ofGrammar .optionalParts)).table.getD (.ofChar 'S') := by
  have hS : .ofChar 'S' ∈ Grammar.solidFront.nonterminals := by decide
  obtain ⟨-, -, hagree, -⟩ := productions_agree_with_relation .solidFront .optionalParts
  exact ⟨hS, rfl, (hagree _ hS _ rfl).mpr (by decide +kernel)⟩

end Lookahead
