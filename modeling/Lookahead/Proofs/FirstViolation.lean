import Mathlib.Data.List.Pairwise
import Mathlib.Order.FixedPoints
import Mathlib.Order.CompletePartialOrder
import Lookahead.Proofs.SymbolSet
import Lookahead.Proofs.Violations

/-!
# The violation that is reported

Leads are given by equations between sets.  A production that begins with a symbol other than a
nonterminal has that symbol as its lead, one that begins with a nonterminal has the leads of all
productions of that nonterminal, and the empty production has none.  The search for leads finds the
least sets that solve the equations (`mem_leastLeads`).

A nonterminal conforms (`Conforms`) when none of its rules begins with it and different rules share
at most `ϵ` in the least solution.  Of a nonterminal that does not conform, one violation is to be
reported (`Reports`): the first rule that begins with the nonterminal, or, if there is none, the
first rule that shares a lead with an earlier one, with the smallest lead it shares.  The rules
before it are apart, so that only one of them has this lead.  Hence at most one violation is to be
reported (`Reports.unique`), and it is the one that the check finds (`violationOf?_eq_some_iff`).

**The check** (`check_reports_first`).  A grammar passes when all its nonterminals conform.
Otherwise the error is what is to be reported of the first nonterminal that does not conform.
-/

namespace Lookahead

/-! ### Leads as a least solution -/

namespace Equations

variable {g : Grammar} {L : Production → Set Symbol}

/-- The leads of each production, given sets to read the leads of other productions from. -/
def leads (g : Grammar) : (Production → Set Symbol) →o (Production → Set Symbol) where
  toFun L
    | [] => ∅
    | X :: _ => if X.isNonterminal then {Y | ∃ q ∈ g.productions X, Y ∈ L q} else {X}
  monotone' := by
    intro L L' hL p
    cases p with
    | nil => exact subset_rfl
    | cons X rest =>
        dsimp only
        split
        · rintro Y ⟨q, hq, hY⟩
          exact ⟨q, hq, hL q hY⟩
        · exact subset_rfl

/-- The least solution for leads. -/
def leastLeads (g : Grammar) : Production → Set Symbol := OrderHom.lfp (leads g)

theorem leads_nonterminal {A : Symbol} (hA : A.isNonterminal) (rest : List Symbol) :
    leads g L (A :: rest) = {X | ∃ q ∈ g.productions A, X ∈ L q} := if_pos hA

theorem leads_other {X : Symbol} (hX : ¬ X.isNonterminal) (rest : List Symbol) :
    leads g L (X :: rest) = {X} := if_neg hX

/-- What the search finds solves the equations. -/
theorem leads_search_le (g : Grammar) :
    leads g (fun p => {X | X ∈ g.leads p}) ≤ fun p => {X | X ∈ g.leads p} := by
  rintro (_ | ⟨A, rest⟩) X hX
  · cases hX
  · refine Grammar.mem_leads.mpr ?_
    by_cases hA : A.isNonterminal
    · rw [leads_nonterminal hA] at hX
      obtain ⟨q, hq, hX⟩ := hX
      obtain ⟨r, hr, rfl, rfl⟩ := Grammar.mem_productions.mp hq
      obtain ⟨hnon, Y, hY, hYX⟩ := Grammar.mem_leads.mp hX
      exact ⟨hnon, r.lhs, rfl, .head ⟨r, hr, rfl, hY⟩ hYX⟩
    · rw [leads_other hA] at hX
      obtain rfl : X = A := hX
      exact ⟨hA, X, rfl, .refl⟩

/-- Sets that hold what the equations ask for hold what comes in front of a production. -/
theorem mem_of_ledBy (hL : leads g L ≤ L) {p : Production} {X : Symbol}
    (hX : ¬ X.isNonterminal) (h : g.LedBy p X) : X ∈ L p := by
  obtain ⟨Y, hfront, hYX⟩ := h
  -- the symbol is in the set of a production that begins with it, and from there it is carried back
  induction hYX using Relation.ReflTransGen.head_induction_on generalizing p with
  | refl =>
      obtain ⟨rest, rfl⟩ := List.head?_eq_some_iff.mp hfront
      have hmem : X ∈ leads g L (X :: rest) := by
        rw [leads_other hX]
        rfl
      exact hL _ hmem
  | head hstep _ ih =>
      obtain ⟨rest, rfl⟩ := List.head?_eq_some_iff.mp hfront
      obtain ⟨r, hr, rfl, hrhs⟩ := hstep
      have hmem : X ∈ leads g L (r.lhs :: rest) := by
        rw [leads_nonterminal (Grammar.isNonterminal_lhs hr)]
        exact ⟨r.rhs, Grammar.mem_productions.mpr ⟨r, hr, rfl, rfl⟩, ih hrhs⟩
      exact hL _ hmem

/-- **The least solution for leads** holds what the search finds. -/
theorem mem_leastLeads {p : Production} {X : Symbol} : X ∈ leastLeads g p ↔ X ∈ g.leads p := by
  refine ⟨fun h => OrderHom.lfp_le (leads g) (leads_search_le g) p h, fun h => ?_⟩
  obtain ⟨hX, hled⟩ := Grammar.mem_leads.mp h
  exact mem_of_ledBy (OrderHom.map_lfp (leads g)).le hX hled

end Equations

namespace Grammar

open Equations (leastLeads mem_leastLeads)

variable {g : Grammar} {A : Symbol}

/-! ### What is shared -/

theorem ordered_leads (g : Grammar) (p : Production) : (g.leads p).Ordered := by
  cases p with
  | nil => exact SymbolSet.ordered_empty
  | cons X rest =>
      rw [leads]
      split
      · exact SymbolSet.ordered_ofList _
      · exact SymbolSet.ordered_ofList _

/-- Rule `r` of `A` shares the lead `X` with the earlier rule `o`. -/
structure Shares (g : Grammar) (A : Symbol) (o r : Rule) (X : Symbol) : Prop where
  earlier : o ∈ g.rulesFor A
  later : r ∈ g.rulesFor A
  order : o.serial < r.serial
  ne_epsilon : X ≠ .epsilon
  mem_earlier : X ∈ leastLeads g o.rhs
  mem_later : X ∈ leastLeads g r.rhs

instance : Std.Symm LeadsApart where
  symm _ _ h X hX hX' := h X hX' hX

theorem Shares.ne {o r : Rule} {X : Symbol} (h : g.Shares A o r X) : o ≠ r := by
  rintro rfl
  exact Nat.lt_irrefl _ h.order

/-- Of rules that are apart, only one has a given lead. -/
theorem eq_of_mem_leads_of_pairwise {rules : List Rule}
    (hapart : (rules.map fun s => (s, g.leads s.rhs)).Pairwise LeadsApart) {r s : Rule}
    (hr : r ∈ rules) (hs : s ∈ rules) {X : Symbol} (hne : X ≠ .epsilon)
    (hXr : X ∈ g.leads r.rhs) (hXs : X ∈ g.leads s.rhs) : r = s := by
  by_contra hrs
  have hrows : (r, g.leads r.rhs) ≠ (s, g.leads s.rhs) := fun h => hrs (Prod.mk.inj h).1
  exact hne (hapart.forall (List.mem_map_of_mem hr) (List.mem_map_of_mem hs) hrows X hXr hXs)

/-! ### What is to be reported -/

/-- No rule of `A` begins with `A`, and different rules share at most `ϵ`. -/
structure Conforms (g : Grammar) (A : Symbol) : Prop where
  front : ∀ r ∈ g.rulesFor A, r.rhs.head? ≠ some A
  apart : ∀ r ∈ g.rulesFor A, ∀ s ∈ g.rulesFor A, r ≠ s →
    leastLeads g r.rhs ∩ leastLeads g s.rhs ⊆ {.epsilon}

/-- The violation to be reported of `A`. -/
inductive Reports (g : Grammar) (A : Symbol) : Violation → Prop
  /-- The first rule of `A` that begins with `A`. -/
  | leftRecursion {r : Rule} (hr : r ∈ g.rulesFor A) (hfront : r.rhs.head? = some A)
      (hfirst : ∀ s ∈ g.rulesFor A, s.rhs.head? = some A → r.serial ≤ s.serial) :
      Reports g A (.leftRecursion A r)
  /-- If none begins with `A`, the first rule that shares a lead with an earlier one, the smallest
  lead that it shares, and the only earlier rule that has this lead. -/
  | commonPrefix {o r : Rule} {X : Symbol} (hfront : ∀ s ∈ g.rulesFor A, s.rhs.head? ≠ some A)
      (hshares : g.Shares A o r X) (hfirst : ∀ p q Y, g.Shares A p q Y → r.serial ≤ q.serial)
      (hleast : ∀ p Y, g.Shares A p r Y → ¬ Y < X) (honly : ∀ p, g.Shares A p r X → p = o) :
      Reports g A (.commonPrefix A o r X)

theorem violationOf?_eq_none_iff_conforms : g.violationOf? A = none ↔ g.Conforms A := by
  rw [violationOf?_eq_none]
  refine ⟨fun ⟨hfront, hpairs⟩ => ⟨hfront, fun r hr s hs hne X hX => ?_⟩,
    fun h => ⟨h.front, fun r s hpair X hX hX' => ?_⟩⟩
  · obtain ⟨hX, hX'⟩ := And.imp mem_leastLeads.mp mem_leastLeads.mp hX
    rcases Nat.lt_trichotomy r.serial s.serial with hlt | heq | hlt
    · exact hpairs r s (sublist_rulesFor.mpr ⟨hr, hs, hlt⟩) X hX hX'
    · exact absurd (eq_of_serial_eq_of_mem_rulesFor hr hs heq) hne
    · exact hpairs s r (sublist_rulesFor.mpr ⟨hs, hr, hlt⟩) X hX' hX
  · obtain ⟨hr, hs, hlt⟩ := sublist_rulesFor.mp hpair
    have hne : r ≠ s := by
      rintro rfl
      exact Nat.lt_irrefl _ hlt
    exact h.apart r hr s hs hne ⟨mem_leastLeads.mpr hX, mem_leastLeads.mpr hX'⟩

/-- The first rule that begins with `A` is to be reported. -/
theorem reports_of_leftRecursion? {v : Violation} (h : g.leftRecursion? A = some v) :
    g.Reports A v := by
  obtain ⟨r, hfind, rfl⟩ := Option.map_eq_some_iff.mp h
  obtain ⟨hfront, before, behind, hrules, hbefore⟩ := List.find?_eq_some_iff_append.mp hfind
  refine .leftRecursion (List.mem_of_find?_eq_some hfind) (by simpa using hfront) ?_
  intro s hs hsfront
  by_contra hlt
  have hsbefore := (mem_before_iff_serial_lt hrules).mpr ⟨hs, Nat.lt_of_not_le hlt⟩
  simpa [hsfront] using hbefore s hsbefore

/-- What the comparison of leads finds is to be reported if no rule begins with `A`. -/
theorem reports_of_commonPrefix? {v : Violation}
    (hfront : ∀ s ∈ g.rulesFor A, s.rhs.head? ≠ some A)
    (h : commonPrefix? A [] ((g.rulesFor A).map fun r => (r, g.leads r.rhs)) = some v) :
    g.Reports A v := by
  obtain ⟨before, r, behind, X, o, hrules, hapart, hshared, rfl⟩ :=
    commonPrefix?_rulesFor_eq_some h
  obtain ⟨hne, ⟨below, above, hown, hbelow⟩, S, hS, hXS⟩ := sharedLead?_eq_some hshared
  obtain ⟨o, ho, hrow⟩ := List.mem_map.mp hS
  obtain ⟨rfl, rfl⟩ := Prod.mk.inj hrow
  have hbefore : ∀ {p}, p ∈ before ↔ p ∈ g.rulesFor A ∧ p.serial < r.serial :=
    mem_before_iff_serial_lt hrules
  have hshares : g.Shares A o r X :=
    { earlier := (hbefore.mp ho).1
      later := by simp [hrules]
      order := (hbefore.mp ho).2
      ne_epsilon := hne
      mem_earlier := mem_leastLeads.mpr hXS
      mem_later := mem_leastLeads.mpr (show X ∈ (g.leads r.rhs).toList by simp [hown]) }
  refine .commonPrefix hfront hshares (fun p q Y hY => ?_) (fun p Y hY hlt => ?_) fun p hp => ?_
  · by_contra hlt
    have hqr : q.serial < r.serial := Nat.lt_of_not_le hlt
    have hq := hbefore.mpr ⟨hY.later, hqr⟩
    have hp := hbefore.mpr ⟨hY.earlier, Nat.lt_trans hY.order hqr⟩
    exact hY.ne (eq_of_mem_leads_of_pairwise hapart hp hq hY.ne_epsilon
      (mem_leastLeads.mp hY.mem_earlier) (mem_leastLeads.mp hY.mem_later))
  · have hp := hbefore.mpr ⟨hY.earlier, hY.order⟩
    have hYbelow :=
      (ordered_leads g r.rhs).mem_below_of_lt hown (mem_leastLeads.mp hY.mem_later) hlt
    exact hbelow Y hYbelow hY.ne_epsilon _ (List.mem_map_of_mem hp)
      (mem_leastLeads.mp hY.mem_earlier)
  · exact eq_of_mem_leads_of_pairwise hapart (hbefore.mpr ⟨hp.earlier, hp.order⟩) ho hne
      (mem_leastLeads.mp hp.mem_earlier) hXS

theorem reports_of_violationOf? {v : Violation} (h : g.violationOf? A = some v) :
    g.Reports A v := by
  rcases Option.or_eq_some_iff.mp h with h | ⟨hnone, h⟩
  · exact reports_of_leftRecursion? h
  · exact reports_of_commonPrefix? (leftRecursion?_eq_none.mp hnone) h

/-- **Nothing is left to choose**: of a nonterminal, at most one violation is to be reported. -/
theorem Reports.unique {v w : Violation} (hv : g.Reports A v) (hw : g.Reports A w) : v = w := by
  cases hv with
  | leftRecursion hr hfront hfirst =>
      cases hw with
      | leftRecursion hs hfront' hfirst' =>
          have hserial := Nat.le_antisymm (hfirst _ hs hfront') (hfirst' _ hr hfront)
          rw [eq_of_serial_eq_of_mem_rulesFor hr hs hserial]
      | commonPrefix hnone => exact absurd hfront (hnone _ hr)
  | @commonPrefix o r X hnone hshares hfirst hleast honly =>
      cases hw with
      | leftRecursion hs hfront' => exact absurd hfront' (hnone _ hs)
      | @commonPrefix p s Y _ hshares' hfirst' hleast' honly' =>
          have hserial := Nat.le_antisymm (hfirst _ _ _ hshares') (hfirst' _ _ _ hshares)
          obtain rfl : r = s :=
            eq_of_serial_eq_of_mem_rulesFor hshares.later hshares'.later hserial
          obtain rfl : X = Y := by
            by_contra hne
            exact hleast p Y hshares' (Symbol.lt_of_not_lt (hleast' o X hshares) hne)
          rw [honly p hshares']

theorem Reports.not_conforms {v : Violation} (h : g.Reports A v) : ¬ g.Conforms A := by
  intro hA
  cases h with
  | leftRecursion hr hfront => exact hA.front _ hr hfront
  | @commonPrefix o r X _ hshares =>
      exact hshares.ne_epsilon (hA.apart o hshares.earlier r hshares.later hshares.ne
        ⟨hshares.mem_earlier, hshares.mem_later⟩)

/-- **The check of a nonterminal** finds what is to be reported. -/
theorem violationOf?_eq_some_iff {v : Violation} : g.violationOf? A = some v ↔ g.Reports A v := by
  refine ⟨reports_of_violationOf?, fun h => ?_⟩
  have hsome : g.violationOf? A ≠ none :=
    fun hnone => h.not_conforms (violationOf?_eq_none_iff_conforms.mp hnone)
  obtain ⟨w, hw⟩ := Option.ne_none_iff_exists'.mp hsome
  rw [hw, (reports_of_violationOf? hw).unique h]

/-! ### The check -/

/-- All nonterminals conform when the rules do, taken together. -/
theorem forall_conforms_iff :
    (∀ A ∈ g.nonterminals, g.Conforms A) ↔
      (∀ r ∈ g.rules, r.rhs.head? ≠ some r.lhs) ∧
        ∀ r ∈ g.rules, ∀ s ∈ g.rules, r ≠ s → r.lhs = s.lhs →
          leastLeads g r.rhs ∩ leastLeads g s.rhs ⊆ {.epsilon} := by
  refine ⟨fun h => ⟨fun r hr => ?_, fun r hr s hs hne hlhs => ?_⟩, fun h A _ => ⟨?_, ?_⟩⟩
  · exact (h r.lhs (mem_nonterminals_of_mem_rules hr)).front r (mem_rulesFor.mpr ⟨hr, rfl⟩)
  · exact (h r.lhs (mem_nonterminals_of_mem_rules hr)).apart r (mem_rulesFor.mpr ⟨hr, rfl⟩) s
      (mem_rulesFor.mpr ⟨hs, hlhs.symm⟩) hne
  · simp only [mem_rulesFor]
    rintro r ⟨hr, rfl⟩
    exact h.1 r hr
  · simp only [mem_rulesFor]
    rintro r ⟨hr, rfl⟩ s ⟨hs, hlhs⟩ hne
    exact h.2 r hr s hs hne hlhs.symm

/-- **The check and what it reports.**  A grammar passes when no rule begins with its own left side
and different rules of a nonterminal share at most `ϵ` in the least solution for leads.  Otherwise
the first nonterminal that does not conform is named, with the violation to be reported of it. -/
theorem check_reports_first (g : Grammar) :
    (g.check = .ok () ↔
      (∀ r ∈ g.rules, r.rhs.head? ≠ some r.lhs) ∧
        ∀ r ∈ g.rules, ∀ s ∈ g.rules, r ≠ s → r.lhs = s.lhs →
          leastLeads g r.rhs ∩ leastLeads g s.rhs ⊆ {.epsilon}) ∧
    ∀ e, g.check = .error e ↔
      ∃ before A behind v, g.nonterminals = before ++ A :: behind ∧
        (∀ B ∈ before, g.Conforms B) ∧ ¬ g.Conforms A ∧ g.Reports A v ∧ e = .violation v := by
  refine ⟨?_, fun e => ?_⟩
  · simp only [check_eq_ok_iff_violationOf?, violationOf?_eq_none_iff_conforms]
    exact forall_conforms_iff
  · simp only [check_eq_error_iff, violation?, List.findSome?_eq_some_iff,
      violationOf?_eq_some_iff, violationOf?_eq_none_iff_conforms]
    refine ⟨?_, ?_⟩
    · rintro ⟨v, ⟨before, A, behind, hsplit, hA, hbefore⟩, rfl⟩
      exact ⟨before, A, behind, v, hsplit, hbefore, hA.not_conforms, hA, rfl⟩
    · rintro ⟨before, A, behind, v, hsplit, hbefore, -, hA, rfl⟩
      exact ⟨v, ⟨before, A, behind, hsplit, hA, hbefore⟩, rfl⟩

end Grammar

end Lookahead
