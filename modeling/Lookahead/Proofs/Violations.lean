import Lookahead.Analysis
import Lookahead.Proofs.Leads

/-!
# What the LL(1) check refuses

The check goes through the rules of a nonterminal and compares the leads of each with those of the
rules before it.  It finds nothing exactly when any two rules share at most `ϵ`
(`commonPrefix?_eq_none`), and what it finds is the first rule that shares a lead with an earlier
one (`commonPrefix?_eq_some`).

**Acceptance** (`check_eq_ok_iff`).  A grammar passes when no rule begins with its own left side and
different rules of a nonterminal share at most `ϵ` among their leads.

**Refusal** (`check_eq_error`).  Otherwise the error is one of these two.
-/

namespace Lookahead.Grammar

variable {g : Grammar}

/-! ### Rules with their leads -/

/-- Two rules, each with its leads, share at most `ϵ`. -/
def LeadsApart (e f : Rule × SymbolSet) : Prop := ∀ X, X ∈ e.2 → X ∈ f.2 → X = .epsilon

/-- For `X` nothing is found if it is `ϵ` or no earlier rule has it. -/
theorem earlierRule?_eq_none {earlier : List (Rule × SymbolSet)} {X : Symbol} :
    (if X.isEpsilon then none
      else (earlier.find? fun e => e.2.contains X).map fun e => (X, e.1)) = none ↔
      (X ≠ .epsilon → ∀ e ∈ earlier, X ∉ e.2) := by
  simp only [ite_eq_left_iff, Option.map_eq_none_iff, List.find?_eq_none, SymbolSet.contains_iff,
    Symbol.isEpsilon_iff, ne_eq]

theorem sharedLead?_eq_none {earlier : List (Rule × SymbolSet)} {f : Rule × SymbolSet} :
    sharedLead? earlier f.2 = none ↔ ∀ e ∈ earlier, LeadsApart e f := by
  simp only [sharedLead?, List.findSome?_eq_none_iff, earlierRule?_eq_none]
  refine ⟨fun h e he X hX hf => ?_, fun h X hf hne e he hX => hne (h e he X hX hf)⟩
  by_contra hne
  exact h X hf hne e he hX

/-- What is found is a symbol of the rule's own that an earlier rule has, and no symbol listed
before it is shared. -/
theorem sharedLead?_eq_some {earlier : List (Rule × SymbolSet)} {own : SymbolSet} {X : Symbol}
    {o : Rule} (h : sharedLead? earlier own = some (X, o)) :
    X ≠ .epsilon ∧ (∃ below above, own.toList = below ++ X :: above ∧
      ∀ Y ∈ below, Y ≠ .epsilon → ∀ e ∈ earlier, Y ∉ e.2) ∧ ∃ S, (o, S) ∈ earlier ∧ X ∈ S := by
  obtain ⟨below, Y, above, hown, hshared, hbelow⟩ := List.findSome?_eq_some_iff.mp h
  split at hshared
  · cases hshared
  · rename_i hne
    obtain ⟨e, hfind, he⟩ := Option.map_eq_some_iff.mp hshared
    obtain ⟨rfl, rfl⟩ := Prod.mk.inj he
    have hcontains := List.find?_some hfind
    refine ⟨fun hε => hne (Symbol.isEpsilon_iff.mpr hε), ⟨below, above, hown, fun Z hZ => ?_⟩,
      e.2, List.mem_of_find?_eq_some hfind, SymbolSet.contains_iff.mp hcontains⟩
    exact earlierRule?_eq_none.mp (hbelow Z hZ)

/-- Rules that are apart stay so with one more behind them if nothing is shared with that one. -/
theorem pairwise_leadsApart_concat {earlier : List (Rule × SymbolSet)} {f : Rule × SymbolSet}
    (hearlier : earlier.Pairwise LeadsApart) :
    (earlier ++ [f]).Pairwise LeadsApart ↔ sharedLead? earlier f.2 = none := by
  rw [sharedLead?_eq_none, List.pairwise_append]
  simp [hearlier]

/-- **Nothing is found** exactly when any two rules share at most `ϵ`. -/
theorem commonPrefix?_eq_none {A : Symbol} {earlier rest : List (Rule × SymbolSet)}
    (hearlier : earlier.Pairwise LeadsApart) :
    commonPrefix? A earlier rest = none ↔ (earlier ++ rest).Pairwise LeadsApart := by
  -- the rules compared already are apart, whatever comes behind them
  induction rest generalizing earlier with
  | nil => simpa [commonPrefix?] using hearlier
  | cons f rest ih =>
      obtain ⟨r, own⟩ := f
      have hnext := pairwise_leadsApart_concat (f := (r, own)) hearlier
      rw [commonPrefix?, List.append_cons earlier (r, own) rest]
      split
      · rename_i hsome
        refine ⟨fun h => absurd h (by simp), fun h => ?_⟩
        rw [hnext.mp (h.sublist (List.sublist_append_left _ _))] at hsome
        cases hsome
      · rename_i hnone
        exact ih (hnext.mpr hnone)

/-- **What is found** is the first rule that shares a lead other than `ϵ` with an earlier one: the
rules before it are apart. -/
theorem commonPrefix?_eq_some {A : Symbol} {earlier rest : List (Rule × SymbolSet)} {v : Violation}
    (hearlier : earlier.Pairwise LeadsApart) (h : commonPrefix? A earlier rest = some v) :
    ∃ before r own behind X o, earlier ++ rest = before ++ (r, own) :: behind ∧
      before.Pairwise LeadsApart ∧ sharedLead? before own = some (X, o) ∧
      v = .commonPrefix A o r X := by
  induction rest generalizing earlier with
  | nil => cases h
  | cons f rest ih =>
      obtain ⟨r, own⟩ := f
      rw [commonPrefix?] at h
      split at h
      · rename_i X o hsome
        exact ⟨earlier, r, own, rest, X, o, rfl, hearlier, hsome, (Option.some.inj h).symm⟩
      · rename_i hnone
        rw [List.append_cons earlier]
        exact ih ((pairwise_leadsApart_concat hearlier).mpr hnone) h

/-! ### The rules of a nonterminal -/

theorem leftRecursion?_eq_none {A : Symbol} :
    g.leftRecursion? A = none ↔ ∀ r ∈ g.rulesFor A, r.rhs.head? ≠ some A := by
  simp [leftRecursion?]

theorem violationOf?_eq_none {A : Symbol} :
    g.violationOf? A = none ↔
      (∀ r ∈ g.rulesFor A, r.rhs.head? ≠ some A) ∧
        ∀ r s, [r, s].Sublist (g.rulesFor A) →
          ∀ X, X ∈ g.leads r.rhs → X ∈ g.leads s.rhs → X = .epsilon := by
  rw [violationOf?, Option.or_eq_none_iff, leftRecursion?_eq_none,
    commonPrefix?_eq_none List.Pairwise.nil, List.nil_append, List.pairwise_map,
    List.pairwise_iff_forall_sublist]
  rfl

/-- What the comparison of leads finds among the rules of `A`. -/
theorem commonPrefix?_rulesFor_eq_some {A : Symbol} {v : Violation}
    (h : commonPrefix? A [] ((g.rulesFor A).map fun r => (r, g.leads r.rhs)) = some v) :
    ∃ before r behind X o, g.rulesFor A = before ++ r :: behind ∧
      (before.map fun s => (s, g.leads s.rhs)).Pairwise LeadsApart ∧
      sharedLead? (before.map fun s => (s, g.leads s.rhs)) (g.leads r.rhs) = some (X, o) ∧
      v = .commonPrefix A o r X := by
  obtain ⟨before, r, own, behind, X, o, hsplit, hbefore, hshared, rfl⟩ :=
    commonPrefix?_eq_some List.Pairwise.nil h
  obtain ⟨first, rest, hrules, rfl, hrest⟩ := List.map_eq_append_iff.mp hsplit
  obtain ⟨s, last, rfl, hs, -⟩ := List.map_eq_cons_iff.mp hrest
  obtain ⟨rfl, rfl⟩ := Prod.mk.inj hs
  exact ⟨first, s, last, X, o, hrules, hbefore, hshared, rfl⟩

theorem violationOf?_eq_some {A : Symbol} {v : Violation} (h : g.violationOf? A = some v) :
    (∃ r ∈ g.rulesFor A, v = .leftRecursion A r ∧ r.rhs.head? = some A) ∨
      ∃ o r X, v = .commonPrefix A o r X ∧ [o, r].Sublist (g.rulesFor A) ∧
        X ∈ g.leads o.rhs ∧ X ∈ g.leads r.rhs ∧ X ≠ .epsilon := by
  rcases Option.or_eq_some_iff.mp h with h | ⟨-, h⟩
  · obtain ⟨r, hfind, rfl⟩ := Option.map_eq_some_iff.mp h
    exact .inl ⟨r, List.mem_of_find?_eq_some hfind, rfl, by simpa using List.find?_some hfind⟩
  · obtain ⟨before, r, behind, X, o, hrules, -, hshared, rfl⟩ := commonPrefix?_rulesFor_eq_some h
    obtain ⟨hne, ⟨below, above, hown, -⟩, S, hS, hXS⟩ := sharedLead?_eq_some hshared
    obtain ⟨o, ho, hrow⟩ := List.mem_map.mp hS
    obtain ⟨rfl, rfl⟩ := Prod.mk.inj hrow
    have hX : X ∈ (g.leads r.rhs).toList := by simp [hown]
    refine .inr ⟨o, r, X, rfl, ?_, hXS, hX, hne⟩
    rw [hrules]
    exact (List.singleton_sublist.mpr ho).append (List.singleton_sublist.mpr List.mem_cons_self)

/-! ### The check -/

/-- The rules of every nonterminal in turn. -/
theorem check_eq_ok_iff_violationOf? :
    g.check = .ok () ↔ ∀ A ∈ g.nonterminals, g.violationOf? A = none := by
  rw [← List.findSome?_eq_none_iff, ← violation?, check]
  cases g.violation? <;> simp

theorem check_eq_error_iff {e : Error} :
    g.check = .error e ↔ ∃ v, g.violation? = some v ∧ e = .violation v := by
  rw [check]
  cases g.violation? <;> simp [eq_comm]

/-- **Acceptance.**  A grammar passes when no rule begins with its own left side and no two rules of
a nonterminal share a lead other than `ϵ`. -/
theorem check_eq_ok_iff :
    g.check = .ok () ↔
      (∀ r ∈ g.rules, r.rhs.head? ≠ some r.lhs) ∧
        ∀ r ∈ g.rules, ∀ s ∈ g.rules, s.lhs = r.lhs → r.serial < s.serial →
          ∀ X, X ∈ g.leads r.rhs → X ∈ g.leads s.rhs → X = .epsilon := by
  simp only [check_eq_ok_iff_violationOf?, violationOf?_eq_none, sublist_rulesFor, mem_rulesFor]
  refine ⟨fun h => ⟨fun r hr => ?_, fun r hr s hs hlhs hlt => ?_⟩, ?_⟩
  · exact (h r.lhs (mem_nonterminals_of_mem_rules hr)).1 r ⟨hr, rfl⟩
  · exact (h r.lhs (mem_nonterminals_of_mem_rules hr)).2 r s ⟨⟨hr, rfl⟩, ⟨hs, hlhs⟩, hlt⟩
  · rintro ⟨hfront, hleads⟩ A -
    refine ⟨fun r hr => hr.2 ▸ hfront r hr.1, ?_⟩
    rintro r s ⟨⟨hr, rfl⟩, ⟨hs, hlhs⟩, hlt⟩
    exact hleads r hr s hs hlhs hlt

/-- **Refusal.**  A grammar that does not pass has a rule that begins with its own left side, or two
rules of one nonterminal, the earlier one named first, with a common lead other than `ϵ`. -/
theorem check_eq_error {e : Error} (h : g.check = .error e) :
    (∃ A, ∃ r ∈ g.rulesFor A, e = .violation (.leftRecursion A r) ∧ r.rhs.head? = some A) ∨
      ∃ A o r X, e = .violation (.commonPrefix A o r X) ∧ o ∈ g.rulesFor A ∧ r ∈ g.rulesFor A ∧
        o.serial < r.serial ∧ X ∈ g.leads o.rhs ∧ X ∈ g.leads r.rhs ∧ X ≠ .epsilon := by
  obtain ⟨v, hv, rfl⟩ := check_eq_error_iff.mp h
  obtain ⟨A, -, hA⟩ := List.exists_of_findSome?_eq_some hv
  rcases violationOf?_eq_some hA with ⟨r, hr, rfl, hfront⟩ | ⟨o, r, X, rfl, hpair, hleads⟩
  · exact .inl ⟨A, r, hr, rfl, hfront⟩
  · obtain ⟨ho, hr, hlt⟩ := sublist_rulesFor.mp hpair
    exact .inr ⟨A, o, r, X, rfl, ho, hr, hlt, hleads⟩

end Lookahead.Grammar
