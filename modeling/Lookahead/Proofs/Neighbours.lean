import Mathlib.Logic.Relation
import Lookahead.Neighbours
import Lookahead.Proofs.Closure
import Lookahead.Proofs.Nullable

/-!
# Scans and the relations read off by them

A scan reaches a symbol of a form when everything before it vanishes (`mem_reachable`), and it gets
through a concatenation part by part (`mem_reachable_append`).  The three seed relations are such
scans of the right sides: from the left for `BDW`, from the right for `DEO`, and from behind a
nonterminal for `FDB`.  A rule written `ϵ` puts nothing in place of its left side and contributes to
none of them, so all three can be read off the expansions of all rules
(`relates_beginsDirectlyWith`, `relates_directlyEnds`, `relates_followedDirectlyBy`).

Nothing here depends on where the set of nullable nonterminals comes from.
-/

namespace Lookahead

namespace NullableSet

variable {ns : NullableSet}

/-! ### Scans -/

@[simp] theorem reachable_nil : ns.reachable [] = [] := rfl

theorem reachable_cons (X : Symbol) (α : List Symbol) :
    ns.reachable (X :: α) = X :: if ns.contains X then ns.reachable α else [] := rfl

@[simp] theorem adjacent_nil : ns.adjacent [] = [] := rfl

theorem adjacent_cons (X : Symbol) (α : List Symbol) :
    ns.adjacent (X :: α) =
      (if X.isNonterminal then (ns.reachable α).map fun Y => ⟨X, Y⟩ else []) ++ ns.adjacent α := rfl

theorem mem_reachable_cons {X Y : Symbol} {α : List Symbol} :
    X ∈ ns.reachable (Y :: α) ↔ X = Y ∨ ns.contains Y = true ∧ X ∈ ns.reachable α := by
  rw [reachable_cons, List.mem_cons]
  split <;> simp_all

/-- A scan of a concatenation ends in its first part, or goes through it. -/
theorem mem_reachable_append {X : Symbol} {α β : List Symbol} :
    X ∈ ns.reachable (α ++ β) ↔ X ∈ ns.reachable α ∨ ns.Vanishes α ∧ X ∈ ns.reachable β := by
  induction α with
  | nil => simp
  | cons Y rest ih =>
      rw [List.cons_append, mem_reachable_cons, ih, mem_reachable_cons, vanishes_cons]
      tauto

/-- A scan reaches the symbols with nothing but vanishing ones before them. -/
theorem mem_reachable {X : Symbol} {α : List Symbol} :
    X ∈ ns.reachable α ↔ ∃ u v, α = u ++ X :: v ∧ ns.Vanishes u := by
  refine ⟨?_, ?_⟩
  · intro h
    induction α with
    | nil => exact absurd h List.not_mem_nil
    | cons Y rest ih =>
        rcases mem_reachable_cons.mp h with rfl | ⟨hY, h⟩
        · exact ⟨[], rest, rfl, vanishes_nil⟩
        · obtain ⟨u, v, rfl, hu⟩ := ih h
          exact ⟨Y :: u, v, rfl, vanishes_cons.mpr ⟨hY, hu⟩⟩
  · rintro ⟨u, v, rfl, hu⟩
    exact mem_reachable_append.mpr (.inr ⟨hu, mem_reachable_cons.mpr (.inl rfl)⟩)

theorem mem_of_mem_reachable {X : Symbol} {α : List Symbol} (h : X ∈ ns.reachable α) : X ∈ α := by
  obtain ⟨u, v, rfl, -⟩ := mem_reachable.mp h
  simp

/-- A scan of a reversed form reaches the symbols with nothing but vanishing ones behind them. -/
theorem mem_reachable_reverse {X : Symbol} {α : List Symbol} :
    X ∈ ns.reachable α.reverse ↔ ∃ u v, α = u ++ X :: v ∧ ns.Vanishes v := by
  rw [mem_reachable]
  refine ⟨?_, ?_⟩
  · rintro ⟨u, v, h, hu⟩
    refine ⟨v.reverse, u.reverse, ?_, vanishes_reverse.mpr hu⟩
    rw [← List.reverse_reverse α, h]
    simp
  · rintro ⟨u, v, rfl, hv⟩
    exact ⟨v.reverse, u.reverse, by simp, vanishes_reverse.mpr hv⟩

/-- A nonterminal is adjacent to what a scan of the symbols behind it reaches. -/
theorem mem_adjacent {X Y : Symbol} {α : List Symbol} :
    ⟨X, Y⟩ ∈ ns.adjacent α ↔
      X.isNonterminal ∧ ∃ u v, α = u ++ X :: v ∧ Y ∈ ns.reachable v := by
  induction α with
  | nil => simp
  | cons Z rest ih =>
      rw [adjacent_cons, List.mem_append, ih]
      refine ⟨?_, ?_⟩
      · rintro (h | ⟨hX, u, v, rfl, hY⟩)
        · split at h
          · rename_i hZ
            obtain ⟨Y', hY', he⟩ := List.mem_map.mp h
            obtain ⟨rfl, rfl⟩ := Pair.mk.inj he
            exact ⟨hZ, [], rest, rfl, hY'⟩
          · exact absurd h List.not_mem_nil
        · exact ⟨hX, Z :: u, v, rfl, hY⟩
      · rintro ⟨hX, u, v, h, hY⟩
        cases u with
        | nil =>
            obtain ⟨rfl, rfl⟩ := List.cons.inj h
            left
            rw [if_pos hX]
            exact List.mem_map.mpr ⟨Y, hY, rfl⟩
        | cons Z' u =>
            obtain ⟨rfl, rfl⟩ := List.cons.inj h
            exact .inr ⟨hX, u, v, rfl, hY⟩

/-- A nonterminal of the first part is adjacent to what a scan reaches across both parts. -/
theorem mem_adjacent_append {X Y : Symbol} {α β : List Symbol} :
    ⟨X, Y⟩ ∈ ns.adjacent (α ++ β) ↔
      (X.isNonterminal ∧ ∃ u v, α = u ++ X :: v ∧ Y ∈ ns.reachable (v ++ β)) ∨
        ⟨X, Y⟩ ∈ ns.adjacent β := by
  rw [mem_adjacent, mem_adjacent, ← and_or_left]
  refine and_congr_right fun _ => ⟨?_, ?_⟩
  · rintro ⟨u, v, h, hY⟩
    rcases List.append_eq_append_iff.mp h with ⟨u', rfl, rfl⟩ | ⟨α', rfl, hv⟩
    · exact .inr ⟨u', v, rfl, hY⟩
    · cases α' with
      | nil => exact .inr ⟨[], v, hv.symm, hY⟩
      | cons Z α' =>
          obtain ⟨rfl, rfl⟩ := List.cons.inj hv
          exact .inl ⟨u, α', rfl, hY⟩
  · rintro (⟨u, v, rfl, hY⟩ | ⟨u, v, rfl, hY⟩)
    · exact ⟨u, v ++ β, by simp, hY⟩
    · exact ⟨α ++ u, v, by simp, hY⟩

/-- A nullable symbol stands right before a terminal somewhere in the form. -/
theorem mem_beforeTerminals {X Y : Symbol} {α : List Symbol} :
    ⟨X, Y⟩ ∈ ns.beforeTerminals α ↔
      (ns.contains X = true ∧ Y.isTerminal) ∧ [X, Y] <:+: α := by
  fun_induction NullableSet.beforeTerminals ns α with
  | case1 X' Y' rest ih =>
      have hinside : [X, Y] <:+: X' :: Y' :: rest ↔
          (X = X' ∧ Y = Y') ∨ [X, Y] <:+: Y' :: rest := by
        rw [List.infix_cons_iff]
        simp
      rw [List.mem_append, ih, List.mem_ite_nil_right, List.mem_singleton, Bool.and_eq_true,
        hinside, Pair.mk.injEq, and_or_left]
      exact or_congr_left (and_congr_left fun ⟨hX, hY⟩ => by rw [hX, hY])
  | case2 α hshort =>
      refine iff_of_false List.not_mem_nil fun ⟨_, hinside⟩ => ?_
      have hlength : 2 ≤ α.length := hinside.length_le
      match α with
      | X :: Y :: rest => exact hshort X Y rest rfl

/-! ### Scans of forms before and after a step -/

/-- If `A` vanishes with `ρ`, a scan that gets to a symbol with `ρ` in place of `A` gets to it with
`A` in its place, or gets to `A` and would go on to the symbol inside `ρ`. -/
theorem mem_reachable_of_expand {A Y : Symbol} {u ρ v : List Symbol}
    (hnull : ns.Vanishes ρ → ns.contains A = true) (hY : Y ∈ ns.reachable (u ++ ρ ++ v)) :
    Y ∈ ns.reachable (u ++ A :: v) ∨
      A ∈ ns.reachable (u ++ A :: v) ∧ Y ∈ ns.reachable ρ := by
  rw [mem_reachable_append, mem_reachable_append, vanishes_append] at hY
  rcases hY with (hY | ⟨hu, hY⟩) | ⟨⟨hu, hρ⟩, hY⟩
  · exact .inl (mem_reachable_append.mpr (.inl hY))
  · exact .inr ⟨mem_reachable.mpr ⟨u, v, rfl, hu⟩, hY⟩
  · have hY' : Y ∈ ns.reachable (A :: v) := mem_reachable_cons.mpr (.inr ⟨hnull hρ, hY⟩)
    exact .inl (mem_reachable_append.mpr (.inr ⟨hu, hY'⟩))

/-- A scan of `α` reaches `X`, or a symbol from which `R` leads to `X`. -/
def Scans (ns : NullableSet) (R : Symbol → Symbol → Prop) (α : List Symbol) (X : Symbol) : Prop :=
  ∃ Y ∈ ns.reachable α, Relation.ReflTransGen R Y X

/-- What is scanned with `ρ` in place of `A` is scanned with `A` in its place, if `A` vanishes with
`ρ` and `R` leads from `A` to all that a scan of `ρ` reaches. -/
theorem Scans.of_expand {R : Symbol → Symbol → Prop} {A X : Symbol} {u ρ v : List Symbol}
    (hnull : ns.Vanishes ρ → ns.contains A = true) (hR : ∀ Y ∈ ns.reachable ρ, R A Y)
    (h : ns.Scans R (u ++ ρ ++ v) X) : ns.Scans R (u ++ A :: v) X := by
  obtain ⟨Y, hY, hX⟩ := h
  rcases mem_reachable_of_expand hnull hY with hY | ⟨hA, hY⟩
  · exact ⟨Y, hY, hX⟩
  · exact ⟨A, hA, .head (hR Y hY) hX⟩

end NullableSet

namespace Grammar

variable {g : Grammar} {ns : NullableSet}

/-! ### The seed relations -/

/-- A rule of `A` puts `X` behind vanishing symbols only. -/
def BeginsDirectly (g : Grammar) (ns : NullableSet) (A X : Symbol) : Prop :=
  ∃ r ∈ g.rules, r.lhs = A ∧ X ∈ ns.reachable r.rhs.expansion

/-- A rule of `A` puts `X` before vanishing symbols only. -/
def EndsDirectly (g : Grammar) (ns : NullableSet) (X A : Symbol) : Prop :=
  ∃ r ∈ g.rules, r.lhs = A ∧ X ∈ ns.reachable r.rhs.expansion.reverse

/-- A rule puts `Y` behind the nonterminal `X`, with vanishing symbols between them. -/
def FollowsDirectly (g : Grammar) (ns : NullableSet) (X Y : Symbol) : Prop :=
  ∃ r ∈ g.rules, ⟨X, Y⟩ ∈ ns.adjacent r.rhs.expansion

theorem mem_writtenRules {r : Rule} :
    r ∈ g.writtenRules ↔ r ∈ g.rules ∧ r.rhs ≠ Production.epsilon := by
  rw [writtenRules, List.mem_filter, Bool.not_eq_true', ← Bool.not_eq_true,
    Production.isEpsilon_iff]

/-- What is found in the written rules is found in the expansions of all rules: the others expand
to nothing. -/
theorem exists_writtenRules {P : Rule → List Symbol → Prop} (hnil : ∀ r, ¬ P r []) :
    (∃ r ∈ g.writtenRules, P r r.rhs) ↔ ∃ r ∈ g.rules, P r r.rhs.expansion := by
  refine ⟨fun ⟨r, hr, hp⟩ => ?_, fun ⟨r, hr, hp⟩ => ?_⟩
  · obtain ⟨hr, hε⟩ := mem_writtenRules.mp hr
    exact ⟨r, hr, by rwa [Production.expansion_of_ne hε]⟩
  · have hε : r.rhs ≠ Production.epsilon := by
      intro h
      rw [h, Production.expansion_epsilon] at hp
      exact hnil r hp
    rw [Production.expansion_of_ne hε] at hp
    exact ⟨r, mem_writtenRules.mpr ⟨hr, hε⟩, hp⟩

theorem beginsDirectly_iff_writtenRules {A X : Symbol} :
    g.BeginsDirectly ns A X ↔ ∃ r ∈ g.writtenRules, r.lhs = A ∧ X ∈ ns.reachable r.rhs :=
  (exists_writtenRules (P := fun r α => r.lhs = A ∧ X ∈ ns.reachable α)
    fun _ h => absurd h.2 List.not_mem_nil).symm

theorem endsDirectly_iff_writtenRules {X A : Symbol} :
    g.EndsDirectly ns X A ↔ ∃ r ∈ g.writtenRules, r.lhs = A ∧ X ∈ ns.reachable r.rhs.reverse :=
  (exists_writtenRules (P := fun r α => r.lhs = A ∧ X ∈ ns.reachable α.reverse)
    fun _ h => absurd h.2 List.not_mem_nil).symm

/-- **`BDW`** is read off by a scan from the left. -/
theorem relates_beginsDirectlyWith {A X : Symbol} :
    (g.beginsDirectlyWith ns).Relates A X ↔ g.BeginsDirectly ns A X := by
  rw [beginsDirectly_iff_writtenRules]
  simp only [Relation.Relates, beginsDirectlyWith, Relation.mem_ofPairs, List.mem_flatMap,
    Rule.beginnings, List.mem_map, Pair.mk.injEq]
  refine ⟨?_, ?_⟩
  · rintro ⟨r, hr, Y, hY, hA, rfl⟩
    exact ⟨r, hr, hA, hY⟩
  · rintro ⟨r, hr, hA, hX⟩
    exact ⟨r, hr, X, hX, hA, rfl⟩

theorem relates_beginsDirectlyWith_eq :
    (g.beginsDirectlyWith ns).Relates = g.BeginsDirectly ns := by
  funext A X
  exact propext relates_beginsDirectlyWith

/-- **`FDB`** is read off by scans from behind each nonterminal. -/
theorem relates_followedDirectlyBy {X Y : Symbol} :
    (g.followedDirectlyBy ns).Relates X Y ↔ g.FollowsDirectly ns X Y := by
  simp only [Relation.Relates, followedDirectlyBy, Relation.mem_ofPairs, List.mem_flatMap,
    FollowsDirectly]
  refine exists_congr fun r => and_congr_right fun _ => ?_
  by_cases hε : r.rhs = Production.epsilon
  · rw [hε]
    simp [Production.epsilon, Production.expansion, Production.isEpsilon, NullableSet.adjacent_cons,
      Symbol.isNonterminal]
  · rw [Production.expansion_of_ne hε]

/-- **`DEO`** is read off by a scan from the right.  Beyond that a nullable left side ends itself,
and on demand a nullable symbol before a terminal ends that terminal. -/
theorem relates_directlyEnds {adjacentEnds : Bool} {X A : Symbol} :
    (g.directlyEnds ns adjacentEnds).Relates X A ↔
      g.EndsDirectly ns X A ∨
        (X = A ∧ ns.contains A = true ∧ ∃ r ∈ g.writtenRules, r.lhs = A) ∨
        (adjacentEnds = true ∧ ⟨X, A⟩ ∈ g.endAdjacency ns) := by
  rw [endsDirectly_iff_writtenRules]
  simp only [Relation.Relates, directlyEnds, Relation.mem_ofPairs, Pair.mem_sort, List.mem_append,
    List.mem_flatMap, Rule.endings, List.mem_map, Pair.mk.injEq, List.mem_ite_nil_right,
    List.mem_singleton]
  refine ⟨?_, ?_⟩
  · rintro (⟨r, hr, ⟨Y, hY, rfl, hA⟩ | ⟨hns, rfl, rfl⟩⟩ | hadj)
    · exact .inl ⟨r, hr, hA, hY⟩
    · exact .inr (.inl ⟨rfl, hns, r, hr, rfl⟩)
    · exact .inr (.inr hadj)
  · rintro (⟨r, hr, hA, hX⟩ | ⟨rfl, hns, r, hr, rfl⟩ | hadj)
    · exact .inl ⟨r, hr, .inl ⟨X, hX, rfl, hA⟩⟩
    · exact .inl ⟨r, hr, .inr ⟨hns, rfl, rfl⟩⟩
    · exact .inr hadj

/-- The end adjacency is read off two neighbouring places at a time. -/
theorem mem_endAdjacency {X Y : Symbol} :
    ⟨X, Y⟩ ∈ g.endAdjacency ns ↔
      (ns.contains X = true ∧ Y.isTerminal) ∧ ∃ r ∈ g.writtenRules, [X, Y] <:+: r.rhs := by
  rw [endAdjacency, Pair.mem_sort, List.mem_eraseDups, List.mem_flatMap]
  simp only [NullableSet.mem_beforeTerminals]
  refine ⟨?_, ?_⟩
  · rintro ⟨r, hr, hkind, hinside⟩
    exact ⟨hkind, r, hr, hinside⟩
  · rintro ⟨hkind, r, hr, hinside⟩
    exact ⟨r, hr, hkind, hinside⟩

/-! ### What the seed relations relate -/

theorem BeginsDirectly.kind {A X : Symbol} (h : g.BeginsDirectly ns A X) :
    A ∈ g.nonterminals ∧ (X.isNonterminal ∨ X.isTerminal) ∧ X ∈ g.occurrences := by
  obtain ⟨r, hr, rfl, hX⟩ := h
  have hmem : X ∈ r.rhs.expansion := NullableSet.mem_of_mem_reachable hX
  exact ⟨mem_nonterminals_of_mem_rules hr, (proper_rhs hr).sentential X hmem,
    mem_occurrences_of_mem_rhs hr (Production.mem_of_mem_expansion hmem)⟩

theorem EndsDirectly.kind {X A : Symbol} (h : g.EndsDirectly ns X A) :
    A ∈ g.nonterminals ∧ (X.isNonterminal ∨ X.isTerminal) ∧ X ∈ g.occurrences := by
  obtain ⟨r, hr, rfl, hX⟩ := h
  have hmem : X ∈ r.rhs.expansion := by simpa using NullableSet.mem_of_mem_reachable hX
  exact ⟨mem_nonterminals_of_mem_rules hr, (proper_rhs hr).sentential X hmem,
    mem_occurrences_of_mem_rhs hr (Production.mem_of_mem_expansion hmem)⟩

end Grammar

end Lookahead
