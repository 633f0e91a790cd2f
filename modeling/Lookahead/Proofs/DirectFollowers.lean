import Lookahead.Proofs.Monotone

/-!
# Which direct followers follow

`FB` is the join of `EO`, `FDB` and `BW`, so a pair of `FDB` is a pair of `FB` as soon as its left
side ends itself and its right side begins with itself.  The first is always so: `EO` is reflexive
on every symbol of the grammar.  The second is not.  `BW` is reflexive on the terminals and on the
nonterminals that begin with something (`relates_beginsWith_iff`), and a nonterminal without rules,
or with empty ones only, begins with nothing.  Such a nonterminal may stand right behind another one
in a rule and yet be no follower of it.

**Direct followers** (`mem_fb_iff_of_mem_fdb`).  A direct follower is missing from `FB` only if it
is such a nonterminal, and then only if no chain of leading symbols brings it there from another
direct follower.
-/

namespace Lookahead

namespace Grammar

variable {g : Grammar} {ns : NullableSet}

/-- A nonterminal begins with something if one of its rules is not empty. -/
theorem exists_beginsDirectly_iff {A : Symbol} :
    (∃ X, g.BeginsDirectly ns A X) ↔ ∃ r ∈ g.rules, r.lhs = A ∧ r.rhs.expansion ≠ [] := by
  refine ⟨?_, ?_⟩
  · rintro ⟨X, r, hr, hlhs, hX⟩
    exact ⟨r, hr, hlhs, List.ne_nil_of_mem (NullableSet.mem_of_mem_reachable hX)⟩
  · rintro ⟨r, hr, hlhs, hne⟩
    obtain ⟨X, rest, hrhs⟩ := List.exists_cons_of_ne_nil hne
    refine ⟨X, r, hr, hlhs, ?_⟩
    rw [hrhs]
    exact NullableSet.mem_reachable_cons.mpr (.inl rfl)

/-- **`BW`** is what one or more pairs of `BDW` lead to, and each occurring terminal and each
nonterminal with a rule that is not empty with itself. -/
theorem relates_beginsWith_iff {C Y : Symbol} :
    (g.beginsWith (g.beginsDirectlyWith ns)).Relates C Y ↔
      Relation.TransGen (g.BeginsDirectly ns) C Y ∨
        C = Y ∧ (Y ∈ g.terminals ∨ ∃ r ∈ g.rules, r.lhs = Y ∧ r.rhs.expansion ≠ []) := by
  rw [beginsWith, Relation.mem_close, relates_beginsDirectlyWith_eq]
  refine or_congr Iff.rfl (and_congr_right ?_)
  rintro rfl
  rw [List.mem_append, Relation.mem_lefts, relates_beginsDirectlyWith_eq, exists_beginsDirectly_iff,
    or_comm]
  refine and_iff_left_of_imp ?_
  rintro (hterm | ⟨r, hr, rfl, -⟩)
  · exact not_isEpsilon_of_kind (.inr (mem_terminals.mp hterm).2)
  · exact not_isEpsilon_of_kind (.inl (isNonterminal_lhs hr))

end Grammar

namespace Analysis

variable {g : Grammar} {c : Config}

/-- **Direct followers.**  In every analysis a pair of `FDB` is a pair of `FB` exactly when its
right side is a terminal or a nonterminal with a rule that is not empty, or when one or more pairs
of `BDW` lead to its right side from a symbol that directly follows what the left side ends. -/
theorem mem_fb_iff_of_mem_fdb {settings : List Setting} {a : Analysis}
    (hc : Config.ofSettings settings = .ok c) (ha : g.analyze settings = .ok a) {X Y : Symbol}
    (hXY : ⟨X, Y⟩ ∈ a.fdb) :
    ⟨X, Y⟩ ∈ a.fb ↔
      Y.isTerminal ∨ (∃ r ∈ g.rules, r.lhs = Y ∧ r.rhs.expansion ≠ []) ∨
        ∃ B C, ⟨X, B⟩ ∈ a.eo ∧ ⟨B, C⟩ ∈ a.fdb ∧ Relation.TransGen a.bdw.Relates C Y := by
  obtain rfl := Grammar.eq_ofConfig_of_analyze hc ha
  obtain ⟨hX, hXocc, hkind, hYocc⟩ := (Grammar.relates_followedDirectlyBy.mp hXY).kind
  have hself : (ofConfig g c).eo.Relates X X :=
    Grammar.relates_ends_of_reflTransGen
      (fun _ => Grammar.mem_endUniverse.mpr ⟨hXocc, .inl hX⟩) .refl
  have hbdw : (ofConfig g c).bdw.Relates = g.BeginsDirectly g.nullable :=
    Grammar.relates_beginsDirectlyWith_eq
  rw [hbdw]
  refine relates_fb.trans ⟨?_, ?_⟩
  · rintro (⟨rfl, -⟩ | ⟨B, C, hXB, hBC, hCY⟩)
    · rcases hkind with hkind | hkind <;> cases hkind
    · rcases Grammar.relates_beginsWith_iff.mp hCY with hCY | ⟨rfl, hterm | hrule⟩
      · exact .inr (.inr ⟨B, C, hXB, hBC, hCY⟩)
      · exact .inl (Grammar.mem_terminals.mp hterm).2
      · exact .inr (.inl hrule)
  · rintro (hterm | hrule | ⟨B, C, hXB, hBC, hCY⟩)
    · refine .inr ⟨X, Y, hself, hXY, Grammar.relates_beginsWith_iff.mpr (.inr ⟨rfl, .inl ?_⟩)⟩
      exact Grammar.mem_terminals.mpr ⟨hYocc, hterm⟩
    · exact .inr ⟨X, Y, hself, hXY, Grammar.relates_beginsWith_iff.mpr (.inr ⟨rfl, .inr hrule⟩)⟩
    · exact .inr ⟨B, C, hXB, hBC, Grammar.relates_beginsWith_iff.mpr (.inl hCY)⟩

/-- Two optional parts: `B` directly follows `A` and has a rule that is not empty, so it follows
`A`. -/
theorem optionalParts_direct_follower :
    ∃ a, Grammar.optionalParts.analyze [.skipCheck true] = .ok a ∧
      ⟨.ofChar 'A', .ofChar 'B'⟩ ∈ a.fdb ∧ ⟨.ofChar 'A', .ofChar 'B'⟩ ∈ a.fb := by
  have hc : Config.ofSettings [.skipCheck true] = .ok ⟨.conventionalStart, false, true⟩ := rfl
  have ha : Grammar.optionalParts.analyze [.skipCheck true] = .ok (ofConfig Grammar.optionalParts
      ⟨.conventionalStart, false, true⟩) := Grammar.analyze_of_skipCheck rfl hc rfl
  have hfdb : ⟨.ofChar 'A', .ofChar 'B'⟩ ∈ (ofConfig Grammar.optionalParts
      ⟨.conventionalStart, false, true⟩).fdb := by decide +kernel
  have hrule : ∃ r ∈ Grammar.optionalParts.rules, r.lhs = .ofChar 'B' ∧ r.rhs.expansion ≠ [] := by
    decide +kernel
  exact ⟨_, ha, hfdb, (mem_fb_iff_of_mem_fdb hc ha hfdb).mpr (.inr (.inl hrule))⟩

end Analysis

/-! ### A direct follower that does not follow -/

/-- `S → A B`, `A → a` with `B` left undefined, as a draft. -/
def Draft.undefinedBehind : Draft :=
  ((Draft.empty (Text.bytes "G")).define (.ofChar 'S') [Symbol.word "AB"]).define (.ofChar 'A')
    [Symbol.word "a"]

/-- `S → A B`, `A → a` with `B` left undefined. -/
def Grammar.undefinedBehind : Grammar :=
  ⟨Text.bytes "G", Draft.undefinedBehind.definitions, Draft.undefinedBehind.wellFormed⟩

/-- A nonterminal without rules right behind another one: `A FDB B` holds, `A FB B` does not. -/
theorem Analysis.undefinedBehind_not_follower :
    Draft.undefinedBehind.grammar = .ok Grammar.undefinedBehind ∧
      ∃ a, Grammar.undefinedBehind.analyze [] = .ok a ∧
        ⟨.ofChar 'A', .ofChar 'B'⟩ ∈ a.fdb ∧ ⟨.ofChar 'A', .ofChar 'B'⟩ ∉ a.fb := by
  have hcheck : Grammar.undefinedBehind.check = .ok () := by decide +kernel
  have ha : Grammar.undefinedBehind.analyze [] = .ok (ofConfig Grammar.undefinedBehind .standard) :=
    Grammar.analyze_of_check_ok rfl rfl hcheck
  exact ⟨rfl, _, ha, by decide +kernel, by decide +kernel⟩

end Lookahead
