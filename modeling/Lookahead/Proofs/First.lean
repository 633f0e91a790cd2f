import Lookahead.Predict.First
import Lookahead.Proofs.Reach
import Lookahead.Proofs.SetTable
import Lookahead.Reach

/-!
# FIRST means: begins with

FIRST of a form is read off by a scan: it holds the terminals that a scan from the left reaches, the
sets of the nonterminals that it reaches, and `ϵ` if the form vanishes (`mem_ofSymbols`).  A pass
over the rules puts FIRST of each right side into the set of the left side.  The sets never hold
anything but terminals and `ϵ`, so the passes end, and they end with sets that are closed under the
rules.

**The sets** (`mem_table_ofGrammar`).  The set of a nonterminal holds the terminals to which `BDW`
leads from it, and `ϵ` if one of its right sides vanishes.  The passes alone get there, so what is
added by relation afterwards is there already.  All this is true over any set of nullable
nonterminals.

**FIRST** (`first_iff_derives`).  Over the nullable nonterminals of the grammar itself, FIRST of a
form holds the terminals that begin what the form derives, and `ϵ` if it derives the empty word.
-/

namespace Lookahead

namespace FirstSets

variable {g : Grammar} {ns : NullableSet} {fs : FirstSets}

/-! ### FIRST of a form -/

theorem ofSequence_eq (fs : FirstSets) (p : Production) :
    fs.ofSequence p = fs.ofSymbols p.expansion := by
  unfold ofSequence Production.expansion
  split <;> rfl

theorem ofSymbols_nil (fs : FirstSets) : fs.ofSymbols [] = SymbolSet.ofList [.epsilon] := rfl

theorem ofSymbols_cons (fs : FirstSets) (X : Symbol) (α : List Symbol) :
    fs.ofSymbols (X :: α) =
      if X.isTerminal then SymbolSet.ofList [X]
      else if X.isNonterminal then
        if fs.nullable.contains X then
          (SymbolSet.empty.union (fs.table.getD X) false).union (fs.ofSymbols α) true
        else SymbolSet.empty.union (fs.table.getD X) false
      else fs.ofSymbols α := rfl

theorem mem_ofSymbols_terminal {X Y : Symbol} {rest : List Symbol} (hY : Y.isTerminal) :
    X ∈ fs.ofSymbols (Y :: rest) ↔ X = Y := by
  rw [ofSymbols_cons, if_pos hY, SymbolSet.mem_ofList, List.mem_singleton]

theorem mem_ofSymbols_nonterminal {X Y : Symbol} {rest : List Symbol} (hY : Y.isNonterminal) :
    X ∈ fs.ofSymbols (Y :: rest) ↔
      X ≠ .epsilon ∧ X ∈ fs.table.getD Y ∨
        fs.nullable.contains Y = true ∧ X ∈ fs.ofSymbols rest := by
  have hterm : ¬ Y.isTerminal := fun h => Symbol.not_isNonterminal_of_isTerminal h hY
  have hown : X ∈ SymbolSet.empty.union (fs.table.getD Y) false ↔
      X ≠ .epsilon ∧ X ∈ fs.table.getD Y := by
    simp [Symbol.isEpsilon_iff, and_comm]
  rw [ofSymbols_cons, if_neg hterm, if_pos hY]
  by_cases hnull : fs.nullable.contains Y = true
  · rw [if_pos hnull, SymbolSet.mem_union, hown]
    simp only [hnull, true_and, true_or, and_true]
    exact or_comm
  · rw [if_neg hnull, hown]
    simp only [hnull, false_and, or_false, Bool.false_eq_true]

/-- **FIRST of a form** under the sets known so far, as a scan of the form. -/
theorem mem_ofSymbols (hns : fs.nullable.OnlyNonterminals) {α : List Symbol} (hα : Sentential α)
    {X : Symbol} :
    X ∈ fs.ofSymbols α ↔ X = .epsilon ∧ fs.nullable.Vanishes α ∨
      X ≠ .epsilon ∧ ∃ Y ∈ fs.nullable.reachable α,
        Y.isTerminal ∧ X = Y ∨ Y.isNonterminal ∧ X ∈ fs.table.getD Y := by
  induction α with
  | nil => simp [ofSymbols_nil]
  | cons Y rest ih =>
      obtain ⟨hY, hrest⟩ := sentential_cons.mp hα
      by_cases hterm : Y.isTerminal
      · -- the scan ends at a terminal
        have hnon : ¬ Y.isNonterminal := Symbol.not_isNonterminal_of_isTerminal hterm
        have hnull : ¬ fs.nullable.contains Y = true := fun h => hnon (hns Y h)
        have hne : Y ≠ .epsilon := Symbol.ne_epsilon_of_isTerminal hterm
        rw [mem_ofSymbols_terminal hterm]
        simp only [NullableSet.mem_reachable_cons, NullableSet.vanishes_cons, hnull, false_and,
          and_false, or_false, false_or, exists_eq_left, hterm, hnon, true_and, Bool.false_eq_true]
        exact ⟨fun h => ⟨h ▸ hne, h⟩, fun h => h.2⟩
      · have hnon : Y.isNonterminal := hY.resolve_right hterm
        rw [mem_ofSymbols_nonterminal hnon, ih hrest]
        simp only [NullableSet.mem_reachable_cons, NullableSet.vanishes_cons, or_and_right,
          exists_or, exists_eq_left, hterm, hnon, true_and, Bool.false_eq_true, false_and,
          false_or]
        by_cases hnull : fs.nullable.contains Y = true
        · simp only [hnull, true_and, and_or_left]
          exact or_left_comm
        · simp only [hnull, false_and, and_false, or_false, exists_false, Bool.false_eq_true,
            false_or]

theorem ordered_ofSymbols (fs : FirstSets) (α : List Symbol) : (fs.ofSymbols α).Ordered := by
  induction α with
  | nil => exact SymbolSet.ordered_ofList _
  | cons Y rest ih =>
      rw [ofSymbols_cons]
      split
      · exact SymbolSet.ordered_ofList _
      · split
        · split
          · exact (SymbolSet.ordered_empty.union _ _).union _ _
          · exact SymbolSet.ordered_empty.union _ _
        · exact ih

/-! ### The passes end -/

/-- An ordered set of terminals and `ϵ`. -/
def Predictive (S : SymbolSet) : Prop := S.Ordered ∧ ∀ X ∈ S, X = .epsilon ∨ X.isTerminal

theorem predictive_empty : Predictive SymbolSet.empty :=
  ⟨SymbolSet.ordered_empty, fun X h => absurd h (SymbolSet.not_mem_empty X)⟩

/-- There are 26 terminals. -/
theorem Predictive.size_le {S : SymbolSet} (h : Predictive S) : S.size ≤ 27 := by
  have hsub : S.toList ⊆ .epsilon :: (List.finRange 26).map Symbol.terminal := by
    intro X hX
    rcases h.2 X hX with rfl | hX'
    · exact List.mem_cons_self
    · cases X with
      | terminal i => simp
      | _ => cases hX'
  exact (h.1.nodup.subperm hsub).length_le

/-- The sets belong to the defined nonterminals of `g` and are predictive, over `ns`. -/
structure Within (g : Grammar) (ns : NullableSet) (fs : FirstSets) : Prop where
  nullable : fs.nullable = ns
  keys : fs.table.keys = g.nonterminals
  predictive : fs.table.Each Predictive

theorem within_ofKeys (g : Grammar) (ns : NullableSet) :
    Within g ns ⟨SetTable.ofKeys g.nonterminals, ns⟩ :=
  ⟨rfl, SetTable.keys_ofKeys _, SetTable.each_ofKeys _ predictive_empty⟩

theorem Within.size_le (h : Within g ns fs) : fs.size ≤ 27 * g.nonterminals.length := by
  rw [← h.keys]
  exact SetTable.Each.size_le fun row hrow => (h.predictive row hrow).size_le

theorem Within.predictive_ofSymbols (h : Within g ns fs) (hns : ns.OnlyNonterminals)
    {α : List Symbol} (hα : Sentential α) : Predictive (fs.ofSymbols α) := by
  refine ⟨ordered_ofSymbols fs α, fun X hX => ?_⟩
  rw [mem_ofSymbols (h.nullable ▸ hns) hα] at hX
  rcases hX with ⟨rfl, -⟩ | ⟨-, Y, -, ⟨hY, rfl⟩ | ⟨-, hX⟩⟩
  · exact .inl rfl
  · exact .inr hY
  · exact (h.predictive.getD predictive_empty).2 X hX

theorem grows_visit (hns : ns.OnlyNonterminals) {r : Rule} (hr : r ∈ g.rules) :
    Grows (Within g ns) size fun fs => fs.visit r where
  keeps fs h := by
    have hkey : r.lhs ∈ fs.table.keys := h.keys ▸ Grammar.mem_nonterminals_of_mem_rules hr
    have hnew := h.predictive_ofSymbols hns (Grammar.proper_rhs hr).sentential
    rw [← ofSequence_eq] at hnew
    refine ⟨h.nullable, (SetTable.keys_insert hkey).trans h.keys,
      h.predictive.insert predictive_empty fun S hS => ⟨hS.1.insertAll _, fun X hX => ?_⟩⟩
    rcases SymbolSet.mem_insertAll.mp hX with hX | hX
    · exact hnew.2 X hX
    · exact hS.2 X hX
  le fs h :=
    (SetTable.size_insert (h.keys ▸ Grammar.mem_nonterminals_of_mem_rules hr)).1
  fixed fs h hle := by
    have hkey : r.lhs ∈ fs.table.keys := h.keys ▸ Grammar.mem_nonterminals_of_mem_rules hr
    have htable := (SetTable.size_insert hkey).2 hle
    cases fs
    exact congrArg (FirstSets.mk · _) htable

theorem within_ofProductions (hns : ns.OnlyNonterminals) : Within g ns (ofProductions g ns) :=
  saturate_induction (Grows.foldl fun _ hr => grows_visit hns hr).keeps _ (within_ofKeys g ns)

/-- The passes end where no rule has anything to add. -/
theorem visit_ofProductions (hns : ns.OnlyNonterminals) {r : Rule} (hr : r ∈ g.rules) :
    (ofProductions g ns).visit r = ofProductions g ns :=
  Grows.visit_saturate (fun _ hr => grows_visit hns hr) (fun _ h => h.size_le)
    (within_ofKeys g ns) (by omega) r hr

/-- The sets that the passes end with are closed under the rules. -/
theorem mem_table_of_mem_ofSymbols (hns : ns.OnlyNonterminals) {r : Rule} (hr : r ∈ g.rules)
    {X : Symbol} (h : X ∈ (ofProductions g ns).ofSymbols r.rhs.expansion) :
    X ∈ (ofProductions g ns).table.getD r.lhs := by
  rw [← visit_ofProductions hns hr, visit, SetTable.mem_getD_insert, ofSequence_eq]
  exact .inr ⟨rfl, h⟩

/-! ### What the sets hold -/

/-- What the set of `A` should hold: the terminals to which `BDW` leads from `A`, and `ϵ` if a right
side of `A` vanishes. -/
def Predicted (g : Grammar) (ns : NullableSet) (A X : Symbol) : Prop :=
  (X = .epsilon ∧ ∃ r ∈ g.rules, r.lhs = A ∧ ns.Vanishes r.rhs.expansion) ∨
    (X.isTerminal ∧ Relation.TransGen (g.BeginsDirectly ns) A X)

/-- The sets, over `ns`, hold nothing that should not be there. -/
structure Sound (g : Grammar) (ns : NullableSet) (fs : FirstSets) : Prop where
  nullable : fs.nullable = ns
  predicted : ∀ A X, X ∈ fs.table.getD A → Predicted g ns A X

/-- What a right side adds to the set of its left side should be there. -/
theorem Sound.ofSymbols (hns : ns.OnlyNonterminals) (h : Sound g ns fs) {r : Rule}
    (hr : r ∈ g.rules) {X : Symbol} (hX : X ∈ fs.ofSymbols r.rhs.expansion) :
    Predicted g ns r.lhs X := by
  obtain ⟨rfl, hfs⟩ := h
  rw [mem_ofSymbols hns (Grammar.proper_rhs hr).sentential] at hX
  rcases hX with ⟨rfl, hempty⟩ | ⟨hne, Y, hY, ⟨hterm, rfl⟩ | ⟨-, hX⟩⟩
  · exact .inl ⟨rfl, r, hr, rfl, hempty⟩
  · exact .inr ⟨hterm, .single ⟨r, hr, rfl, hY⟩⟩
  · rcases hfs Y X hX with ⟨rfl, -⟩ | ⟨hterm, hYX⟩
    · exact absurd rfl hne
    · exact .inr ⟨hterm, .head ⟨r, hr, rfl, hY⟩ hYX⟩

theorem Sound.visit (hns : ns.OnlyNonterminals) (h : Sound g ns fs) {r : Rule}
    (hr : r ∈ g.rules) : Sound g ns (fs.visit r) := by
  refine ⟨h.nullable, fun A X hX => ?_⟩
  rw [FirstSets.visit, SetTable.mem_getD_insert, ofSequence_eq] at hX
  rcases hX with hX | ⟨rfl, hX⟩
  · exact h.predicted A X hX
  · exact h.ofSymbols hns hr hX

theorem sound_ofProductions (hns : ns.OnlyNonterminals) : Sound g ns (ofProductions g ns) := by
  have hstart : Sound g ns ⟨SetTable.ofKeys g.nonterminals, ns⟩ :=
    ⟨rfl, fun A X hX => absurd (SetTable.getD_ofKeys _ ▸ hX) (SymbolSet.not_mem_empty X)⟩
  exact saturate_induction
    (fun _ h => List.foldlRecOn g.rules FirstSets.visit h fun _ h _ hr => h.visit hns hr) _ hstart

/-- **The passes find exactly what the sets should hold.** -/
theorem mem_table_ofProductions (hns : ns.OnlyNonterminals) {A X : Symbol} :
    X ∈ (ofProductions g ns).table.getD A ↔ Predicted g ns A X := by
  refine ⟨(sound_ofProductions hns).predicted A X, fun h => ?_⟩
  have hnull : (ofProductions g ns).nullable = ns := (sound_ofProductions hns).nullable
  have hclosed : ∀ {r X}, r ∈ g.rules →
      (X = .epsilon ∧ ns.Vanishes r.rhs.expansion ∨ X ≠ .epsilon ∧
        ∃ Y ∈ ns.reachable r.rhs.expansion, Y.isTerminal ∧ X = Y ∨
          Y.isNonterminal ∧ X ∈ (ofProductions g ns).table.getD Y) →
      X ∈ (ofProductions g ns).table.getD r.lhs := by
    intro r X hr hX
    refine mem_table_of_mem_ofSymbols hns hr ?_
    rw [mem_ofSymbols (hnull.symm ▸ hns) (Grammar.proper_rhs hr).sentential, hnull]
    exact hX
  rcases h with ⟨rfl, r, hr, rfl, hempty⟩ | ⟨hterm, h⟩
  · exact hclosed hr (.inl ⟨rfl, hempty⟩)
  · have hne : X ≠ .epsilon := Symbol.ne_epsilon_of_isTerminal hterm
    -- from the terminal back along `BDW`, a rule at a time
    induction h using Relation.TransGen.head_induction_on with
    | single h =>
        obtain ⟨r, hr, rfl, hX⟩ := h
        exact hclosed hr (.inr ⟨hne, X, hX, .inl ⟨hterm, rfl⟩⟩)
    | head h hYX ih =>
        obtain ⟨r, hr, rfl, hY⟩ := h
        -- the symbol reached has rules of its own
        obtain ⟨Z, hYZ, -⟩ := Relation.TransGen.head'_iff.mp hYX
        have hnon := Grammar.isNonterminal_of_mem_nonterminals hYZ.kind.1
        exact hclosed hr (.inr ⟨hne, _, hY, .inr ⟨hnon, ih⟩⟩)

/-! ### The terminals added by relation -/

theorem mem_table_foldl_insert {t : SetTable} {ps : List Pair} {A X : Symbol} :
    X ∈ (ps.foldl (fun t p => t.insert p.left [p.right]) t).getD A ↔
      X ∈ t.getD A ∨ ⟨A, X⟩ ∈ ps := by
  induction ps generalizing t with
  | nil => simp
  | cons p rest ih =>
      obtain ⟨B, Y⟩ := p
      rw [List.foldl_cons, ih, SetTable.mem_getD_insert, List.mem_singleton, List.mem_cons,
        Pair.mk.injEq, or_assoc]

theorem mem_table_addBeginnings {bw : Relation} {A X : Symbol} :
    X ∈ (fs.addBeginnings bw).table.getD A ↔
      X ∈ fs.table.getD A ∨ bw.Relates A X ∧ A.isNonterminal ∧ X.isTerminal := by
  rw [addBeginnings, mem_table_foldl_insert, List.mem_filter, Bool.and_eq_true]
  rfl

/-- Between a nonterminal and a terminal, `BW` is what `BDW` leads to. -/
theorem relates_beginsWith_terminal {A t : Symbol} (hA : A.isNonterminal) (ht : t.isTerminal) :
    (g.beginsWith (g.beginsDirectlyWith ns)).Relates A t ↔
      Relation.TransGen (g.BeginsDirectly ns) A t := by
  rw [Grammar.beginsWith, Relation.mem_close, Grammar.relates_beginsDirectlyWith_eq, or_iff_left]
  rintro ⟨rfl, -⟩
  exact Symbol.not_isNonterminal_of_isTerminal ht hA

/-- **The FIRST sets of a grammar** hold exactly what they should. -/
theorem mem_table_ofGrammar (hns : ns.OnlyNonterminals) {A X : Symbol} :
    X ∈ (ofGrammar g ns (g.beginsWith (g.beginsDirectlyWith ns))).table.getD A ↔
      Predicted g ns A X := by
  rw [ofGrammar, mem_table_addBeginnings, mem_table_ofProductions hns, or_iff_left_of_imp]
  rintro ⟨hbw, hA, hX⟩
  exact .inr ⟨hX, (relates_beginsWith_terminal hA hX).mp hbw⟩

/-! ### FIRST of a form by relation and by derivation -/

theorem nullable_ofGrammar (hns : ns.OnlyNonterminals) (bw : Relation) :
    (ofGrammar g ns bw).nullable = ns :=
  (sound_ofProductions hns).nullable

/-- FIRST of a form holds the terminals that are scanned along `BDW`, and `ϵ` if it vanishes. -/
theorem mem_ofSymbols_ofGrammar (hns : ns.OnlyNonterminals) {α : List Symbol}
    (hα : Sentential α) {X : Symbol} :
    X ∈ (ofGrammar g ns (g.beginsWith (g.beginsDirectlyWith ns))).ofSymbols α ↔
      (X = .epsilon ∧ ns.Vanishes α) ∨
        (X.isTerminal ∧ ns.Scans (g.BeginsDirectly ns) α X) := by
  rw [mem_ofSymbols ((nullable_ofGrammar hns _).symm ▸ hns) hα, nullable_ofGrammar hns]
  simp only [mem_table_ofGrammar hns]
  refine or_congr Iff.rfl ⟨?_, ?_⟩
  · rintro ⟨hne, Y, hY, ⟨hterm, rfl⟩ | ⟨-, ⟨rfl, -⟩ | ⟨hterm, hYX⟩⟩⟩
    · exact ⟨hterm, X, hY, .refl⟩
    · exact absurd rfl hne
    · exact ⟨hterm, Y, hY, hYX.to_reflTransGen⟩
  · rintro ⟨hterm, Y, hY, hYX⟩
    refine ⟨Symbol.ne_epsilon_of_isTerminal hterm, Y, hY, ?_⟩
    rcases Relation.reflTransGen_iff_eq_or_transGen.mp hYX with rfl | hYX
    · exact .inl ⟨hterm, rfl⟩
    · -- the symbol reached has rules of its own
      obtain ⟨Z, hYZ, -⟩ := Relation.TransGen.head'_iff.mp hYX
      have hnon := Grammar.isNonterminal_of_mem_nonterminals hYZ.kind.1
      exact .inr ⟨hnon, .inr ⟨hterm, hYX⟩⟩

/-- The FIRST sets of a grammar over its own nullable nonterminals. -/
abbrev firstSets (g : Grammar) : FirstSets :=
  ofGrammar g g.nullable (g.beginsWith (g.beginsDirectlyWith g.nullable))

/-- **FIRST of a form by derivation.** -/
theorem mem_ofSymbols_iff_derives {α : List Symbol} (hα : Sentential α) {X : Symbol} :
    X ∈ (firstSets g).ofSymbols α ↔ g.IsFirst α X := by
  rw [mem_ofSymbols_ofGrammar (NullableSet.onlyNonterminals_ofGrammar g) hα,
    NullableSet.vanishes_iff_derives]
  exact or_congr Iff.rfl (and_congr_right fun _ => Grammar.begins_iff_derives)

/-- What the set of a nonterminal should hold, by derivation. -/
theorem predicted_iff_derives {A X : Symbol} (hA : A.isNonterminal) :
    Predicted g g.nullable A X ↔ g.IsFirst [A] X := by
  refine or_congr (and_congr_right fun _ => ⟨?_, fun h => ?_⟩)
    (and_congr_right fun hX => ⟨fun h => ?_, fun h => ?_⟩)
  · rintro ⟨r, hr, rfl, hempty⟩
    exact (Grammar.Derives.rule hr).trans (NullableSet.vanishes_iff_derives.mp hempty)
  · rcases h.of_single with h | ⟨r, hr, hlhs, h⟩
    · cases h
    · exact ⟨r, hr, hlhs, NullableSet.vanishes_iff_derives.mpr h⟩
  · exact Grammar.derives_of_reflTransGen_begins h.to_reflTransGen
  · obtain ⟨Y, hY, hYX⟩ := Grammar.begins_iff_derives.mpr h
    obtain rfl : Y = A := by simpa using NullableSet.mem_of_mem_reachable hY
    rcases Relation.reflTransGen_iff_eq_or_transGen.mp hYX with rfl | hYX
    · exact absurd hA (Symbol.not_isNonterminal_of_isTerminal hX)
    · exact hYX

theorem ordered_getD (hns : ns.OnlyNonterminals) (bw : Relation) (A : Symbol) :
    ((ofGrammar g ns bw).table.getD A).Ordered := by
  have hproductions : (ofProductions g ns).table.Each SymbolSet.Ordered :=
    fun row hrow => ((within_ofProductions hns).predictive row hrow).1
  have hall : (ofGrammar g ns bw).table.Each SymbolSet.Ordered :=
    List.foldlRecOn _ _ hproductions fun _ h _ _ =>
      h.insert SymbolSet.ordered_empty fun _ hS => hS.insertAll _
  exact hall.getD SymbolSet.ordered_empty

/-- FIRST of a nonterminal is FIRST of the form that it is alone. -/
theorem getD_eq_ofSymbols {A : Symbol} (hA : A.isNonterminal) :
    (firstSets g).table.getD A = (firstSets g).ofSymbols [A] := by
  have hns := NullableSet.onlyNonterminals_ofGrammar g
  have hform : Sentential [A] := sentential_singleton.mpr (.inl hA)
  refine SymbolSet.eq_of_mem_iff (ordered_getD hns _ A) (ordered_ofSymbols _ _) fun X => ?_
  rw [mem_table_ofGrammar hns, predicted_iff_derives hA, mem_ofSymbols_iff_derives hform]

theorem of_nonterminal (fs : FirstSets) {A : Symbol} (hA : A.isNonterminal) :
    fs.of A = fs.table.getD A := by
  have hkind : ¬ (A.isTerminal || A.isEpsilon) = true := by
    cases A <;> simp_all [Symbol.isNonterminal, Symbol.isTerminal, Symbol.isEpsilon]
  rw [of, if_neg hkind]

/-- FIRST of a single symbol is FIRST of the form that it is alone. -/
theorem of_eq_ofSequence {A : Symbol} (hA : A.isNonterminal ∨ A.isTerminal) :
    (firstSets g).of A = (firstSets g).ofSequence [A] := by
  have hform : Sentential [A] := sentential_singleton.mpr hA
  rw [ofSequence_eq, Production.expansion_of_sentential hform]
  rcases hA with hA | hA
  · rw [of_nonterminal _ hA, getD_eq_ofSymbols hA]
  · rw [of, hA, Bool.true_or, if_pos rfl, ofSymbols_cons, if_pos hA]

/-- **FIRST.**  FIRST of a form holds a terminal when the form derives something that begins with
it, `ϵ` when the form derives the empty word, and nothing else; and FIRST of a single symbol is
FIRST of the form that it is alone. -/
theorem first_iff_derives (g : Grammar) {α : List Symbol} (hα : Sentential α) :
    (∀ t : Symbol, t.isTerminal → (t ∈ (firstSets g).ofSequence α ↔ ∃ γ, g.Derives α (t :: γ))) ∧
      (.epsilon ∈ (firstSets g).ofSequence α ↔ g.Derives α []) ∧
      (∀ X ∈ (firstSets g).ofSequence α, X.isTerminal ∨ X = .epsilon) ∧
      ∀ A : Symbol, A.isNonterminal ∨ A.isTerminal →
        (firstSets g).of A = (firstSets g).ofSequence [A] := by
  simp only [ofSequence_eq _ α, Production.expansion_of_sentential hα,
    mem_ofSymbols_iff_derives hα]
  refine ⟨fun t ht => Grammar.isFirst_of_isTerminal ht, Grammar.isFirst_epsilon, ?_,
    fun A hA => of_eq_ofSequence hA⟩
  rintro X (⟨rfl, -⟩ | ⟨hX, -⟩)
  · exact .inr rfl
  · exact .inl hX

/-- Two optional parts: what `A B` derives can begin with `b`, behind an `A` that vanishes. -/
theorem optionalParts_derives_second :
    Sentential [.ofChar 'A', .ofChar 'B'] ∧
      ∃ γ, Grammar.optionalParts.Derives [.ofChar 'A', .ofChar 'B'] (.ofChar 'b' :: γ) := by
  have hform : Sentential [.ofChar 'A', .ofChar 'B'] :=
    sentential_cons.mpr ⟨.inl rfl, sentential_singleton.mpr (.inl rfl)⟩
  exact ⟨hform, ((first_iff_derives Grammar.optionalParts hform).1 (.ofChar 'b') rfl).mp
    (by decide +kernel)⟩

end FirstSets

end Lookahead
