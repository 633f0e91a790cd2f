import Mathlib.Data.List.Nodup
import Mathlib.Data.List.Perm.Subperm
import Lookahead.Nullability
import Lookahead.Proofs.Derivation
import Lookahead.Proofs.Growth

/-!
# Nullable means: derives the empty word

A form vanishes in a set of nonterminals when all of its symbols are in the set.  A pass over the
rules takes up the left side of a rule whose right side vanishes.  Only defined nonterminals are
ever taken up, each once, so the passes end, and they end with a set that is closed under the rules
(`contains_lhs`).

**Nullability** (`vanishes_iff_derives`).  A form vanishes in the nullable nonterminals of a grammar
exactly when it derives the empty word.  One direction holds of every witness as it is taken up, the
other carries vanishing backwards along a derivation.  Of single symbols only nonterminals vanish
(`contains_iff_isNonterminal_and_derives`).
-/

namespace Lookahead

namespace NullableSet

variable {ns : NullableSet} {g : Grammar}

/-- All symbols of a form are in the set. -/
def Vanishes (ns : NullableSet) (α : List Symbol) : Prop := ∀ X ∈ α, ns.contains X = true

@[simp] theorem vanishes_nil : ns.Vanishes [] := fun _ h => absurd h List.not_mem_nil

@[simp] theorem vanishes_cons {X : Symbol} {α : List Symbol} :
    ns.Vanishes (X :: α) ↔ ns.contains X = true ∧ ns.Vanishes α := List.forall_mem_cons

@[simp] theorem vanishes_append {α β : List Symbol} :
    ns.Vanishes (α ++ β) ↔ ns.Vanishes α ∧ ns.Vanishes β := List.forall_mem_append

@[simp] theorem vanishes_reverse {α : List Symbol} : ns.Vanishes α.reverse ↔ ns.Vanishes α := by
  simp [Vanishes]

theorem derivesEmpty_iff {p : Production} :
    ns.derivesEmpty p = true ↔ ns.Vanishes p.expansion := by
  unfold derivesEmpty Production.expansion
  split
  · rename_i h
    simp [h]
  · rename_i h
    simp [h, Vanishes]

/-! ### One rule -/

theorem contains_visit {r : Rule} {A : Symbol} :
    (ns.visit r).contains A = true ↔
      ns.contains A = true ∨ A = r.lhs ∧ ns.Vanishes r.rhs.expansion := by
  unfold visit
  split
  · rename_i h
    rw [Bool.and_eq_true, derivesEmpty_iff] at h
    simp [contains, nonterminals, h.2]
  · rename_i h
    rw [Bool.and_eq_true, derivesEmpty_iff, not_and] at h
    refine ⟨?_, ?_⟩
    · exact Or.inl
    · rintro (hA | ⟨rfl, hr⟩)
      · exact hA
      · -- the left side was known before
        by_contra hnot
        exact h (by simpa using hnot) hr

/-- The set holds defined nonterminals of `g`, each once. -/
def Within (g : Grammar) (ns : NullableSet) : Prop :=
  ns.nonterminals.Nodup ∧ ns.nonterminals ⊆ g.nonterminals

theorem Within.size_le (h : ns.Within g) : ns.size ≤ g.nonterminals.length := by
  have hle : ns.nonterminals.length ≤ g.nonterminals.length := (h.1.subperm h.2).length_le
  rwa [nonterminals, List.length_map] at hle

theorem grows_visit {r : Rule} (hr : r ∈ g.rules) :
    Grows (Within g) size fun ns => ns.visit r where
  keeps ns h := by
    unfold visit
    split
    · rename_i hnew
      -- a left side is taken up only where it is not known yet
      rw [Bool.and_eq_true, Bool.not_eq_true', contains, List.contains_eq_mem,
        decide_eq_false_iff_not] at hnew
      have hnodup : (ns.nonterminals ++ [r.lhs]).Nodup :=
        h.1.append (List.nodup_singleton _) (by simpa using hnew.1)
      have hsub : ns.nonterminals ++ [r.lhs] ⊆ g.nonterminals := by
        refine List.append_subset.mpr ⟨h.2, ?_⟩
        simpa using Grammar.mem_nonterminals_of_mem_rules hr
      exact ⟨by simpa [nonterminals] using hnodup, by simpa [nonterminals] using hsub⟩
    · exact h
  le ns _ := by
    unfold visit
    split <;> simp [size]
  fixed ns _ h := by
    unfold visit at h ⊢
    split at h
    · simp only [size, List.length_append, List.length_singleton] at h
      omega
    · exact if_neg ‹_›

/-! ### The nullable nonterminals of a grammar -/

theorem within_empty (g : Grammar) : Within g empty := ⟨List.nodup_nil, List.nil_subset _⟩

theorem within_ofGrammar (g : Grammar) : Within g (ofGrammar g) :=
  saturate_induction (Grows.foldl fun _ hr => grows_visit hr).keeps _ (within_empty g)

/-- The passes end with a set that is closed under the rules. -/
theorem contains_lhs {r : Rule} (hr : r ∈ g.rules)
    (h : (ofGrammar g).Vanishes r.rhs.expansion) : (ofGrammar g).contains r.lhs = true := by
  have hfix : (ofGrammar g).visit r = ofGrammar g :=
    Grows.visit_saturate (fun r hr => grows_visit hr) (fun _ hns => hns.size_le) (within_empty g)
      (by omega) r hr
  rw [← hfix]
  exact contains_visit.mpr (.inr ⟨rfl, h⟩)

/-- Every member derives the empty word of `g`. -/
def Sound (g : Grammar) (ns : NullableSet) : Prop :=
  ∀ A, ns.contains A = true → g.Derives [A] []

theorem Sound.visit {r : Rule} (hr : r ∈ g.rules) (hns : ns.Sound g) : (ns.visit r).Sound g := by
  intro A hA
  rcases contains_visit.mp hA with hA | ⟨rfl, hempty⟩
  · exact hns A hA
  · exact (Grammar.Derives.rule hr).trans (.nil_of_forall fun X hX => hns X (hempty X hX))

theorem Sound.pass (hns : ns.Sound g) : (ns.pass g.rules).Sound g :=
  List.foldlRecOn g.rules NullableSet.visit hns fun _ h _ hr => h.visit hr

theorem sound_ofGrammar (g : Grammar) : (ofGrammar g).Sound g :=
  saturate_induction (fun _ hns => hns.pass) _ fun _ hA => absurd hA Bool.false_ne_true

/-- A form from which a step leads to a vanishing one vanishes. -/
theorem Vanishes.of_step {α β : List Symbol} (h : g.Step α β) (hβ : (ofGrammar g).Vanishes β) :
    (ofGrammar g).Vanishes α := by
  obtain ⟨hr, u, v⟩ := h
  rw [vanishes_append, vanishes_append] at hβ
  obtain ⟨⟨hu, hrhs⟩, hv⟩ := hβ
  rw [vanishes_append, vanishes_cons]
  exact ⟨hu, contains_lhs hr hrhs, hv⟩

/-- **Nullability.**  The forms that vanish are those that derive the empty word. -/
theorem vanishes_iff_derives {α : List Symbol} :
    (ofGrammar g).Vanishes α ↔ g.Derives α [] := by
  refine ⟨?_, ?_⟩
  · intro h
    exact .nil_of_forall fun X hX => sound_ofGrammar g X (h X hX)
  · intro h
    exact h.backward (fun _ _ hstep hγ => hγ.of_step hstep) vanishes_nil

theorem contains_iff_derives {A : Symbol} :
    (ofGrammar g).contains A = true ↔ g.Derives [A] [] := by
  rw [← vanishes_iff_derives]
  simp

/-- Nullable nonterminals have a definition. -/
theorem mem_nonterminals_of_contains {A : Symbol} (h : (ofGrammar g).contains A = true) :
    A ∈ g.nonterminals :=
  (within_ofGrammar g).2 (List.contains_iff_mem.mp h)

/-- The set holds nothing but nonterminals. -/
def OnlyNonterminals (ns : NullableSet) : Prop := ∀ X, ns.contains X = true → X.isNonterminal

theorem onlyNonterminals_ofGrammar (g : Grammar) : (ofGrammar g).OnlyNonterminals :=
  fun _ h => Grammar.isNonterminal_of_mem_nonterminals (mem_nonterminals_of_contains h)

/-- **The nullable symbols** of a grammar are the nonterminals that derive the empty word: no
terminal is among them, nor `ϵ`, nor the end marker. -/
theorem contains_iff_isNonterminal_and_derives (g : Grammar) (X : Symbol) :
    (ofGrammar g).contains X = true ↔ X.isNonterminal ∧ g.Derives [X] [] := by
  refine ⟨fun h => ?_, fun ⟨_, h⟩ => ?_⟩
  · exact ⟨onlyNonterminals_ofGrammar g X h, contains_iff_derives.mp h⟩
  · exact contains_iff_derives.mpr h

end NullableSet

end Lookahead
