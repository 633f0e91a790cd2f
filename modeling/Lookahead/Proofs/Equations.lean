import Mathlib.Order.FixedPoints
import Mathlib.Order.CompletePartialOrder
import Mathlib.Tactic.Tauto
import Lookahead.Proofs.Select

/-!
# FIRST, FOLLOW and SELECT as least solutions

FIRST and FOLLOW are usually given by equations between sets.  FIRST of a nonterminal is FIRST of
all its right sides together, and FIRST of a sequence is read off the sets of its symbols.  FOLLOW
of a nonterminal is what begins the rest of a right side behind it and, where that rest can vanish,
FOLLOW of the left side; the end marker belongs to FOLLOW of the start symbol.  The sets are the
least ones that solve the equations.

**FIRST** (`mem_leastFirst`).  The sets of symbols with which derivations begin solve the equations.
In every solution, FIRST of a form can only grow when a step is taken back, so the solution holds
what begins any derivation.

**FOLLOW** (`mem_leastFollow`).  What `Follows` and the end marker give solves the equations.  In
every solution, FOLLOW can only grow from a nonterminal to one that ends it.

The analysis computes these sets by closures and joins of relations (`refines_equations`).
-/

namespace Lookahead

namespace Equations

variable {g : Grammar} {S S' T T' : Set Symbol} {F F' : Symbol → Set Symbol}

/-! ### Sequences -/

/-- What begins a sequence of two parts, the first of which begins with `S` and the second with `T`:
the second counts if the first can vanish. -/
def before (S T : Set Symbol) : Set Symbol :=
  {X | X ≠ .epsilon ∧ X ∈ S ∨ .epsilon ∈ S ∧ X ∈ T}

theorem mem_before {X : Symbol} :
    X ∈ before S T ↔ X ≠ .epsilon ∧ X ∈ S ∨ .epsilon ∈ S ∧ X ∈ T := Iff.rfl

theorem before_mono (hS : S ⊆ S') (hT : T ⊆ T') : before S T ⊆ before S' T' := by
  rintro X (⟨hne, hX⟩ | ⟨hempty, hX⟩)
  · exact .inl ⟨hne, hS hX⟩
  · exact .inr ⟨hS hempty, hT hX⟩

theorem before_assoc (S T U : Set Symbol) : before (before S T) U = before S (before T U) := by
  ext X
  simp only [mem_before, ne_eq, not_true_eq_false, false_and, false_or]
  tauto

@[simp] theorem before_epsilon (S : Set Symbol) : before S {.epsilon} = S := by
  ext X
  by_cases hX : X = .epsilon
  · simp [mem_before, hX]
  · simp [mem_before, hX]

@[simp] theorem epsilon_before (T : Set Symbol) : before {.epsilon} T = T := by
  ext X
  simp [mem_before]

/-- FIRST of a symbol, where `F` gives it for the nonterminals. -/
def firstOfSymbol (F : Symbol → Set Symbol) (X : Symbol) : Set Symbol :=
  if X.isTerminal || X.isEpsilon then {X} else F X

/-- FIRST of a sequence, where `F` gives it for the nonterminals. -/
def firstOf (F : Symbol → Set Symbol) : List Symbol → Set Symbol
  | [] => {.epsilon}
  | X :: rest => before (firstOfSymbol F X) (firstOf F rest)

theorem firstOfSymbol_terminal {t : Symbol} (ht : t.isTerminal) : firstOfSymbol F t = {t} := by
  simp [firstOfSymbol, ht]

theorem firstOfSymbol_nonterminal {A : Symbol} (hA : A.isNonterminal) :
    firstOfSymbol F A = F A := by
  cases A <;> simp_all [firstOfSymbol, Symbol.isNonterminal, Symbol.isTerminal, Symbol.isEpsilon]

theorem firstOf_append (α β : List Symbol) :
    firstOf F (α ++ β) = before (firstOf F α) (firstOf F β) := by
  induction α with
  | nil => exact (epsilon_before _).symm
  | cons X rest ih => rw [List.cons_append, firstOf, ih, firstOf, before_assoc]

theorem firstOf_singleton {A : Symbol} (hA : A.isNonterminal) : firstOf F [A] = F A := by
  rw [firstOf, firstOf, before_epsilon, firstOfSymbol_nonterminal hA]

/-- A production written `ϵ` is skipped over like the empty sequence. -/
theorem firstOf_expansion (p : Production) : firstOf F p.expansion = firstOf F p := by
  by_cases hp : p = .epsilon
  · rw [hp, Production.expansion_epsilon, Production.epsilon, firstOf, firstOf, firstOf,
      before_epsilon]
    rfl
  · rw [Production.expansion_of_ne hp]

theorem firstOf_mono (hF : F ≤ F') (α : List Symbol) : firstOf F α ⊆ firstOf F' α := by
  induction α with
  | nil => exact subset_rfl
  | cons X rest ih =>
      refine before_mono ?_ ih
      unfold firstOfSymbol
      split
      · exact subset_rfl
      · exact hF X

/-! ### The equations -/

/-- FIRST of each nonterminal, given sets to read FIRST of the right sides from. -/
def first (g : Grammar) : (Symbol → Set Symbol) →o (Symbol → Set Symbol) where
  toFun F A := {X | ∃ r ∈ g.rules, r.lhs = A ∧ X ∈ firstOf F r.rhs}
  monotone' := by
    rintro F F' hF A X ⟨r, hr, hA, hX⟩
    exact ⟨r, hr, hA, firstOf_mono hF r.rhs hX⟩

/-- FOLLOW of each nonterminal, given FIRST, and sets to read FOLLOW of the left sides from. -/
def follow (g : Grammar) (start : Symbol) (F : Symbol → Set Symbol) :
    (Symbol → Set Symbol) →o (Symbol → Set Symbol) where
  toFun G A := {X | (A = start ∧ X = .endMarker) ∨
    ∃ r ∈ g.rules, ∃ u v, r.rhs = u ++ A :: v ∧ A.isNonterminal ∧
      X ∈ before (firstOf F v) (G r.lhs)}
  monotone' := by
    rintro G G' hG A X (hX | ⟨r, hr, u, v, hrhs, hA, hX⟩)
    · exact .inl hX
    · exact .inr ⟨r, hr, u, v, hrhs, hA, before_mono subset_rfl (hG r.lhs) hX⟩

/-- The least solution for FIRST. -/
def leastFirst (g : Grammar) : Symbol → Set Symbol := OrderHom.lfp (first g)

/-- The least solution for FOLLOW. -/
def leastFollow (g : Grammar) (start : Symbol) : Symbol → Set Symbol :=
  OrderHom.lfp (follow g start (leastFirst g))

/-- SELECT by the least solutions. -/
def leastSelect (g : Grammar) (start : Symbol) (r : Rule) : Set Symbol :=
  before (firstOf (leastFirst g) r.rhs) (leastFollow g start r.lhs)

/-! ### The least solution for FIRST -/

/-- The rule of the equations, for sets that hold what the equations ask for. -/
theorem firstOf_rhs_subset (hF : first g F ≤ F) {r : Rule} (hr : r ∈ g.rules) :
    firstOf F r.rhs.expansion ⊆ F r.lhs := by
  intro X hX
  rw [firstOf_expansion] at hX
  exact hF r.lhs ⟨r, hr, rfl, hX⟩

/-- Taking back a step, FIRST of a form can only grow. -/
theorem firstOf_subset_of_step (hF : first g F ≤ F) {α β : List Symbol} (h : g.Step α β) :
    firstOf F β ⊆ firstOf F α := by
  obtain ⟨hr, u, v⟩ := h
  rename_i r
  have hlhs : firstOf F r.rhs.expansion ⊆ firstOfSymbol F r.lhs := by
    rw [firstOfSymbol_nonterminal (Grammar.isNonterminal_lhs hr)]
    exact firstOf_rhs_subset hF hr
  rw [List.append_assoc, firstOf_append, firstOf_append, firstOf_append, firstOf]
  exact before_mono subset_rfl (before_mono hlhs subset_rfl)

/-- Sets that hold what the equations ask for hold what derivations begin with. -/
theorem mem_firstOf_of_isFirst (hF : first g F ≤ F) {α : List Symbol} {X : Symbol}
    (h : g.IsFirst α X) : X ∈ firstOf F α := by
  -- at the end of the derivation it can be seen, and from there it is carried back
  have hback : ∀ {β}, g.Derives α β → X ∈ firstOf F β → X ∈ firstOf F α := fun hβ =>
    hβ.backward (P := fun α => X ∈ firstOf F α)
      fun _ _ hstep hX => firstOf_subset_of_step hF hstep hX
  rcases h with ⟨rfl, h⟩ | ⟨hX, γ, h⟩
  · exact hback h rfl
  · refine hback h (.inl ⟨Symbol.ne_epsilon_of_isTerminal hX, ?_⟩)
    rw [firstOfSymbol_terminal hX]
    rfl

theorem isFirst_append {α β : List Symbol} {X : Symbol}
    (h : X ∈ before {Y | g.IsFirst α Y} {Y | g.IsFirst β Y}) : g.IsFirst (α ++ β) X := by
  rcases h with ⟨hne, ⟨hX, -⟩ | ⟨hX, γ, h⟩⟩ | ⟨hempty, hβ⟩
  · exact absurd hX hne
  · exact .inr ⟨hX, γ ++ β, h.append (.refl β)⟩
  · have hα : g.Derives α [] := Grammar.isFirst_epsilon.mp hempty
    rcases hβ with ⟨hX, h⟩ | ⟨hX, γ, h⟩
    · exact .inl ⟨hX, hα.append h⟩
    · exact .inr ⟨hX, γ, hα.append h⟩

/-- Read off what derivations of the nonterminals begin with, FIRST of a form holds nothing else
than what its derivations begin with. -/
theorem isFirst_of_mem_firstOf {α : List Symbol} (hα : Sentential α) {X : Symbol}
    (h : X ∈ firstOf (fun A => {Y | g.IsFirst [A] Y}) α) : g.IsFirst α X := by
  induction α generalizing X with
  | nil =>
      obtain rfl : X = .epsilon := h
      exact .inl ⟨rfl, .refl _⟩
  | cons A rest ih =>
      obtain ⟨hA, hrest⟩ := sentential_cons.mp hα
      have hsymbol : firstOfSymbol (fun A => {Y | g.IsFirst [A] Y}) A ⊆ {Y | g.IsFirst [A] Y} := by
        rcases hA with hA | hA
        · rw [firstOfSymbol_nonterminal hA]
        · rw [firstOfSymbol_terminal hA, Set.singleton_subset_iff]
          exact .inr ⟨hA, [], .refl _⟩
      exact isFirst_append (before_mono hsymbol (fun Y hY => ih hrest hY) h)

/-- What derivations begin with solves the equations. -/
theorem first_isFirst_le (g : Grammar) :
    first g (fun A => {X | g.IsFirst [A] X}) ≤ fun A => {X | g.IsFirst [A] X} := by
  rintro A X ⟨r, hr, rfl, hX⟩
  rw [← firstOf_expansion] at hX
  rcases isFirst_of_mem_firstOf (Grammar.proper_rhs hr).sentential hX with ⟨hX, h⟩ | ⟨hX, γ, h⟩
  · exact .inl ⟨hX, (Grammar.Derives.rule hr).trans h⟩
  · exact .inr ⟨hX, γ, (Grammar.Derives.rule hr).trans h⟩

theorem first_leastFirst_le (g : Grammar) : first g (leastFirst g) ≤ leastFirst g :=
  (OrderHom.map_lfp (first g)).le

/-- **FIRST of a form**, read off the least solution, holds what its derivations begin with. -/
theorem mem_firstOf_leastFirst {α : List Symbol} (hα : Sentential α) {X : Symbol} :
    X ∈ firstOf (leastFirst g) α ↔ g.IsFirst α X := by
  refine ⟨fun h => ?_, mem_firstOf_of_isFirst (first_leastFirst_le g)⟩
  have hleast : leastFirst g ≤ fun A => {X | g.IsFirst [A] X} :=
    OrderHom.lfp_le (first g) (first_isFirst_le g)
  exact isFirst_of_mem_firstOf hα (firstOf_mono hleast α h)

/-- **The least solution for FIRST** holds what derivations begin with. -/
theorem mem_leastFirst {A X : Symbol} (hA : A.isNonterminal) :
    X ∈ leastFirst g A ↔ g.IsFirst [A] X := by
  rw [← firstOf_singleton (F := leastFirst g) hA]
  exact mem_firstOf_leastFirst (sentential_singleton.mpr (.inl hA))

/-! ### The least solution for FOLLOW -/

variable {start : Symbol} {G : Symbol → Set Symbol}

/-- What stands in a right side beside a nonterminal is a sentential form. -/
theorem sentential_of_split {r : Rule} (hr : r ∈ g.rules) {u v : List Symbol} {A : Symbol}
    (h : r.rhs.expansion = u ++ A :: v) : Sentential v :=
  fun X hX => (Grammar.proper_rhs hr).sentential X (by simp [h, hX])

/-- What should come behind nonterminals solves the equations. -/
theorem follow_behind_le (g : Grammar) (start : Symbol) :
    follow g start (leastFirst g) (fun A => {X | g.Behind start A X}) ≤
      fun A => {X | g.Behind start A X} := by
  rintro A X (⟨rfl, rfl⟩ | ⟨r, hr, u, v, hrhs, hA, hX⟩)
  · exact .inr ⟨rfl, .refl⟩
  · have hsplit := (Production.expansion_eq_append_cons (.inl hA)).mpr hrhs
    have hv := sentential_of_split hr hsplit
    rcases hX with ⟨hne, hX⟩ | ⟨hempty, hX⟩
    · -- the rest of the right side begins with `X`
      rcases (mem_firstOf_leastFirst hv).mp hX with ⟨hX, -⟩ | ⟨hX, h⟩
      · exact absurd hX hne
      · obtain ⟨C, hC, hCX⟩ := Grammar.begins_iff_derives.mpr h
        have hAC : g.FollowsDirectly g.nullable A C :=
          ⟨r, hr, NullableSet.mem_adjacent.mpr ⟨hA, u, v, hsplit, hC⟩⟩
        exact .inl ⟨hX, A, C, .refl, hAC, hCX⟩
    · -- the rest of the right side vanishes
      have hempty : g.Derives v [] :=
        Grammar.isFirst_epsilon.mp ((mem_firstOf_leastFirst hv).mp hempty)
      have hends : g.EndsDirectly g.nullable A r.lhs :=
        ⟨r, hr, rfl, NullableSet.mem_reachable_reverse.mpr
          ⟨u, v, hsplit, NullableSet.vanishes_iff_derives.mpr hempty⟩⟩
      exact hX.of_endsDirectly hends

/-- In sets that hold what the equations ask for, FOLLOW can only grow from a nonterminal to one
that ends it directly. -/
theorem subset_of_endsDirectly (hG : follow g start (leastFirst g) G ≤ G) {A B : Symbol}
    (hA : A.isNonterminal) (h : g.EndsDirectly g.nullable A B) : G B ⊆ G A := by
  intro X hX
  obtain ⟨r, hr, rfl, hreach⟩ := h
  obtain ⟨u, v, hsplit, hv⟩ := NullableSet.mem_reachable_reverse.mp hreach
  have hempty : .epsilon ∈ firstOf (leastFirst g) v :=
    (mem_firstOf_leastFirst (sentential_of_split hr hsplit)).mpr
      (Grammar.isFirst_epsilon.mpr (NullableSet.vanishes_iff_derives.mp hv))
  exact hG A (.inr ⟨r, hr, u, v, (Production.expansion_eq_append_cons (.inl hA)).mp hsplit, hA,
    .inr ⟨hempty, hX⟩⟩)

theorem subset_of_ends (hG : follow g start (leastFirst g) G ≤ G) {A B : Symbol}
    (hA : A.isNonterminal) (h : Relation.ReflTransGen (g.EndsDirectly g.nullable) A B) :
    G B ⊆ G A := by
  -- what a nonterminal ends is a nonterminal, so the chain can be followed from its front
  induction h using Relation.ReflTransGen.head_induction_on with
  | refl => exact subset_rfl
  | head h _ ih =>
      have hnext := Grammar.isNonterminal_of_mem_nonterminals h.kind.1
      exact (ih hnext).trans (subset_of_endsDirectly hG hA h)

/-- Sets that hold what the equations ask for hold what begins the rest of a right side. -/
theorem mem_of_followsDirectly (hG : follow g start (leastFirst g) G ≤ G) {B C t : Symbol}
    (h : g.FollowsDirectly g.nullable B C) (ht : t.isTerminal)
    (hC : Relation.ReflTransGen (g.BeginsDirectly g.nullable) C t) : t ∈ G B := by
  obtain ⟨r, hr, hadj⟩ := h
  obtain ⟨hB, u, v, hsplit, hreach⟩ := NullableSet.mem_adjacent.mp hadj
  have hfirst : t ∈ firstOf (leastFirst g) v :=
    (mem_firstOf_leastFirst (sentential_of_split hr hsplit)).mpr
      ((Grammar.isFirst_of_isTerminal ht).mpr (Grammar.begins_iff_derives.mp ⟨C, hreach, hC⟩))
  exact hG B (.inr ⟨r, hr, u, v, (Production.expansion_eq_append_cons (.inl hB)).mp hsplit, hB,
    .inl ⟨Symbol.ne_epsilon_of_isTerminal ht, hfirst⟩⟩)

/-- Sets that hold what the equations ask for hold what should come behind nonterminals. -/
theorem mem_of_behind (hG : follow g start (leastFirst g) G ≤ G) {A X : Symbol}
    (hA : A.isNonterminal) (h : g.Behind start A X) : X ∈ G A := by
  rcases h with ⟨hX, B, C, hB, hC, hCX⟩ | ⟨rfl, hstart⟩
  · exact subset_of_ends hG hA hB (mem_of_followsDirectly hG hC hX hCX)
  · exact subset_of_ends hG hA hstart (hG start (.inl ⟨rfl, rfl⟩))

/-- **The least solution for FOLLOW** holds what should come behind nonterminals. -/
theorem mem_leastFollow {A X : Symbol} (hA : A.isNonterminal) :
    X ∈ leastFollow g start A ↔ g.Behind start A X := by
  refine ⟨fun h => ?_, mem_of_behind (OrderHom.map_lfp (follow g start (leastFirst g))).le hA⟩
  exact OrderHom.lfp_le (follow g start (leastFirst g)) (follow_behind_le g start) A h

end Equations

/-! ### The analysis -/

namespace Analysis

variable {g : Grammar} {c : Config}

theorem mem_first_of {A X : Symbol} (hA : A.isNonterminal) :
    X ∈ (ofConfig g c).first.of A ↔ X ∈ Equations.leastFirst g A := by
  have hform : Sentential [A] := sentential_singleton.mpr (.inl hA)
  have hof : (ofConfig g c).first.of A = (FirstSets.firstSets g).ofSymbols [A] := by
    rw [← Production.expansion_of_sentential hform, ← FirstSets.ofSequence_eq]
    exact FirstSets.of_eq_ofSequence (.inl hA)
  rw [hof, FirstSets.mem_ofSymbols_iff_derives hform, Equations.mem_leastFirst hA]

/-- Apart from `ϵ`, SELECT of a rule is what the least solutions give. -/
theorem mem_select_iff_leastSelect (hadj : c.adjacentEnds = false) {r : Rule} (hr : r ∈ g.rules)
    {X : Symbol} :
    X ∈ (ofConfig g c).select.of r ∧ X ≠ .epsilon ↔ X ∈ Equations.leastSelect g c.start r := by
  have hrhs := (Grammar.proper_rhs hr).sentential
  rw [mem_select hr, relates_fb_iff_behind hadj (Grammar.mem_referenced_of_mem_rules hr),
    Equations.leastSelect, Equations.mem_before, ← Equations.firstOf_expansion,
    Equations.mem_firstOf_leastFirst hrhs, Equations.mem_firstOf_leastFirst hrhs,
    Grammar.isFirst_epsilon, Equations.mem_leastFollow (Grammar.isNonterminal_lhs hr)]
  refine ⟨?_, ?_⟩
  · rintro ⟨⟨hX, -⟩ | h | h, hne⟩
    · exact absurd hX hne
    · exact .inl ⟨hne, .inr h⟩
    · exact .inr h
  · rintro (⟨hne, ⟨hX, -⟩ | h⟩ | ⟨hempty, h⟩)
    · exact absurd hX hne
    · exact ⟨.inr (.inl h), hne⟩
    · exact ⟨.inr (.inr ⟨hempty, h⟩), h.ne_epsilon⟩

theorem epsilon_mem_select {r : Rule} (hr : r ∈ g.rules) :
    .epsilon ∈ (ofConfig g c).select.of r ↔
      r.rhs ≠ .epsilon ∧ g.Derives r.rhs.expansion [] := by
  rw [mem_select hr]
  simp [Symbol.isTerminal]

/-- **Refinement.**  The analysis of a grammar that comes of a draft, run without the check and
without counting nullable symbols before terminals as ends, gives the least solutions of the
equations: FIRST of every defined nonterminal, FOLLOW of every nonterminal that derives the empty
word, and apart from `ϵ` SELECT of every rule.  SELECT of a rule holds `ϵ` if its right side is not
written `ϵ` and derives the empty word, and the FOLLOW set that is needed then is there. -/
theorem refines_equations {d : Draft} {settings : List Setting} (hg : d.grammar = .ok g)
    (hc : Config.ofSettings settings = .ok c) (hskip : c.skipCheck = true)
    (hadj : c.adjacentEnds = false) :
    ∃ a, g.analyze settings = .ok a ∧
      (∀ A, g.defines A = true → ∀ X, X ∈ a.first.of A ↔ X ∈ Equations.leastFirst g A) ∧
      (∀ A, g.Derives [A] [] → ∃ S, a.follow.of? A = some S ∧
        ∀ X, X ∈ S ↔ X ∈ Equations.leastFollow g c.start A) ∧
      ∀ r ∈ g.rules, ∃ S, a.select.of? r = some S ∧
        (∀ X, X ∈ S ∧ X ≠ .epsilon ↔ X ∈ Equations.leastSelect g c.start r) ∧
        (.epsilon ∈ S ↔ r.rhs ≠ .epsilon ∧ g.Derives r.rhs.expansion []) ∧
        (g.Derives r.rhs.expansion [] → (a.follow.of? r.lhs).isSome) := by
  have ha : g.analyze settings = .ok (ofConfig g c) :=
    Grammar.analyze_of_skipCheck (Draft.isEmpty_of_grammar hg) hc hskip
  refine ⟨ofConfig g c, ha, fun A hA X => ?_, fun A hempty => ?_, fun r hr => ?_⟩
  · exact mem_first_of (Grammar.isNonterminal_of_mem_nonterminals (Grammar.defines_iff.mp hA))
  · have hdef := NullableSet.mem_nonterminals_of_contains
      (NullableSet.contains_iff_derives.mpr hempty)
    have hA := Grammar.isNonterminal_of_mem_nonterminals hdef
    have href := Grammar.mem_referenced.mpr ⟨Grammar.mem_occurrences_of_mem_nonterminals hdef, hA⟩
    obtain ⟨S, hS⟩ := Option.isSome_iff_exists.mp (isSome_follow.mpr ⟨href, hempty⟩)
    exact ⟨S, hS, fun X => (mem_follow hadj hS).trans (Equations.mem_leastFollow hA).symm⟩
  · exact ⟨_, select_of? hr, fun X => mem_select_iff_leastSelect hadj hr, epsilon_mem_select hr,
      isSome_follow_lhs hr⟩

/-- Two optional parts: in the least solution, `c` comes behind `A` across a `B` that vanishes. -/
theorem optionalParts_mem_leastFollow :
    Draft.optionalParts.grammar = .ok Grammar.optionalParts ∧
      Grammar.optionalParts.Derives [.ofChar 'A'] [] ∧
      .ofChar 'c' ∈ Equations.leastFollow Grammar.optionalParts .conventionalStart
        (.ofChar 'A') := by
  have hrule : ⟨3, .ofChar 'A', [.epsilon]⟩ ∈ Grammar.optionalParts.rules := by decide
  have hempty : Grammar.optionalParts.Derives [.ofChar 'A'] [] := Grammar.Derives.rule hrule
  have hc : Config.ofSettings [.skipCheck true] = .ok ⟨.conventionalStart, false, true⟩ := rfl
  obtain ⟨a, ha, -, hfollow, -⟩ := refines_equations Draft.grammar_optionalParts hc rfl rfl
  obtain rfl : ofConfig Grammar.optionalParts ⟨.conventionalStart, false, true⟩ = a :=
    Except.ok.inj ((Grammar.analyze_of_skipCheck rfl rfl rfl).symm.trans ha)
  obtain ⟨S, hS, hmem⟩ := hfollow (.ofChar 'A') hempty
  refine ⟨Draft.grammar_optionalParts, hempty, (hmem (.ofChar 'c')).mp ?_⟩
  have hset : (ofConfig Grammar.optionalParts ⟨.conventionalStart, false, true⟩).follow.of?
      (.ofChar 'A') = some (.ofList [.ofChar 'b', .ofChar 'c']) := by decide +kernel
  obtain rfl := Option.some.inj (hS.symm.trans hset)
  decide

end Analysis

end Lookahead
