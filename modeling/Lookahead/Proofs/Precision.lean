import Lookahead.Proofs.Select
import Lookahead.Proofs.Violations

/-!
# How far the LL(1) check can be trusted

The check compares leads, the analysis compares SELECT sets.  Leads other than `ϵ` are terminals of
FIRST (`begins_of_mem_leads`), and they are all of SELECT unless the right side derives the empty
word, or a nonterminal that comes in front of it does (`mem_leads_of_mem_select`).

**No false alarms** (`conflict_of_check_error`).  Rules that share a lead are in conflict.  A rule
that begins with its own left side is in conflict with another rule of it, as soon as FIRST of the
left side holds a terminal.  Such a terminal comes from another rule, or from behind the left side
within the rule itself; then the left side vanishes by another rule, and the terminal follows it.

**Exactness** (`check_ok_iff_conflicts_eq_nil`).  Where nothing is nullable, the check misses nothing.

**What is missed** (`vanishing_lead_of_conflict`).  In a grammar that passes, each conflict has a
rule whose right side derives the empty word or is led by a nonterminal that does.
-/

namespace Lookahead

namespace Production

/-- A symbol in front of a production is in front of what it puts in place. -/
theorem expansion_of_head? {p : Production} {X : Symbol} (hX : X.isNonterminal ∨ X.isTerminal)
    (h : p.head? = some X) : p.expansion = X :: p.tail := by
  obtain ⟨rest, rfl⟩ := List.head?_eq_some_iff.mp h
  exact (expansion_eq_append_cons (u := []) hX).mpr rfl

/-- A scan of a proper production stops at its front, or goes on behind a nullable one. -/
theorem Proper.head?_of_mem_reachable {p : Production} (hp : p.Proper) {ns : NullableSet}
    {X : Symbol} (h : X ∈ ns.reachable p.expansion) :
    ∃ Y, p.head? = some Y ∧ (X = Y ∨ ns.contains Y = true) := by
  cases hform : p.expansion with
  | nil => simp [hform] at h
  | cons Y rest =>
      have hY : Y.isNonterminal ∨ Y.isTerminal := hp.sentential Y (by simp [hform])
      have hrhs : p = Y :: rest := (expansion_eq_append_cons (u := []) hY).mp hform
      rw [hform, NullableSet.mem_reachable_cons] at h
      exact ⟨Y, by rw [hrhs, List.head?_cons], h.imp id And.left⟩

end Production

namespace Grammar

variable {g : Grammar} {r : Rule}

/-! ### Leads are in FIRST -/

theorem LedBy.tail {p : Production} {B X : Symbol} (h : g.LedBy p B) (hX : g.HasFront B X) :
    g.LedBy p X := by
  obtain ⟨Y, hY, hB⟩ := h
  exact ⟨Y, hY, hB.tail hX⟩

theorem beginsDirectly_of_hasFront {ns : NullableSet} {A X : Symbol}
    (hX : X.isNonterminal ∨ X.isTerminal) (h : g.HasFront A X) : g.BeginsDirectly ns A X := by
  obtain ⟨r, hr, hA, hfront⟩ := h
  refine ⟨r, hr, hA, ?_⟩
  rw [Production.expansion_of_head? hX hfront]
  exact NullableSet.mem_reachable_cons.mpr (.inl rfl)

theorem reflTransGen_begins_of_hasFront {ns : NullableSet} {Y X : Symbol}
    (hX : X.isNonterminal ∨ X.isTerminal) (h : Relation.ReflTransGen g.HasFront Y X) :
    Relation.ReflTransGen (g.BeginsDirectly ns) Y X := by
  induction h with
  | refl => exact .refl
  | tail _ hB ih => exact (ih (.inl hB.isNonterminal)).tail (beginsDirectly_of_hasFront hX hB)

theorem begins_of_ledBy {p : Production} {t : Symbol} (ht : t.isTerminal) (h : g.LedBy p t) :
    g.Begins p.expansion t := by
  obtain ⟨Y, hY, hYt⟩ := h
  have hkind : Y.isNonterminal ∨ Y.isTerminal := by
    by_cases hnon : Y.isNonterminal
    · exact .inl hnon
    · exact .inr (eq_of_reflTransGen_hasFront hnon hYt ▸ ht)
  refine ⟨Y, ?_, reflTransGen_begins_of_hasFront (.inr ht) hYt⟩
  rw [Production.expansion_of_head? hkind hY]
  exact NullableSet.mem_reachable_cons.mpr (.inl rfl)

theorem kind_of_mem_rhs (hr : r ∈ g.rules) {X : Symbol} (hX : X ∈ r.rhs) :
    X = .epsilon ∨ X.isNonterminal ∨ X.isTerminal := by
  rcases proper_rhs hr with h | h
  · rw [h] at hX
    exact .inl (List.mem_singleton.mp hX)
  · exact .inr (h X hX)

/-- What a right side is led by stands in front of a right side. -/
theorem LedBy.kind (hr : r ∈ g.rules) {X : Symbol} (h : g.LedBy r.rhs X) :
    X = .epsilon ∨ X.isNonterminal ∨ X.isTerminal := by
  obtain ⟨Y, hY, hX⟩ := h
  rcases Relation.ReflTransGen.cases_tail hX with rfl | ⟨B, -, s, hs, -, hfront⟩
  · exact kind_of_mem_rhs hr (List.mem_of_head? hY)
  · exact kind_of_mem_rhs hs (List.mem_of_head? hfront)

/-- **Leads are in FIRST.**  A lead other than `ϵ` is a terminal that begins what the right side
derives. -/
theorem begins_of_mem_leads (hr : r ∈ g.rules) {X : Symbol} (hX : X ∈ g.leads r.rhs)
    (hne : X ≠ .epsilon) : X.isTerminal ∧ g.Begins r.rhs.expansion X := by
  obtain ⟨hnon, hled⟩ := mem_leads.mp hX
  have hterm : X.isTerminal := ((hled.kind hr).resolve_left hne).resolve_left hnon
  exact ⟨hterm, begins_of_ledBy hterm hled⟩

/-! ### What leads can miss -/

/-- Neither `p` nor a nonterminal that comes in front of it derives the empty word. -/
structure Firm (g : Grammar) (p : Production) : Prop where
  whole : ¬ g.Derives p.expansion []
  front : ∀ N, g.LedBy p N → ¬ g.Derives [N] []

/-- Where nothing in front of the rules of `A` vanishes, `BDW` is what stands in front. -/
theorem hasFront_of_beginsDirectly {A X : Symbol} (hfirm : ∀ N, g.HasFront A N → ¬ g.Derives [N] [])
    (h : g.BeginsDirectly g.nullable A X) : g.HasFront A X := by
  obtain ⟨r, hr, rfl, hX⟩ := h
  obtain ⟨Y, hY, rfl | hnull⟩ := (proper_rhs hr).head?_of_mem_reachable hX
  · exact ⟨r, hr, rfl, hY⟩
  · exact absurd (NullableSet.contains_iff_derives.mp hnull) (hfirm Y ⟨r, hr, rfl, hY⟩)

theorem ledBy_of_begins (hr : r ∈ g.rules) (hfirm : g.Firm r.rhs) {X : Symbol}
    (h : g.Begins r.rhs.expansion X) : g.LedBy r.rhs X := by
  obtain ⟨Z, hZ, hX⟩ := h
  obtain ⟨Y, hY, rfl | hnull⟩ := (proper_rhs hr).head?_of_mem_reachable hZ
  · induction hX with
    | refl => exact ⟨Z, hY, .refl⟩
    | tail _ hB ih =>
        exact ih.tail (hasFront_of_beginsDirectly (fun N hN => hfirm.front N (ih.tail hN)) hB)
  · exact absurd (NullableSet.contains_iff_derives.mp hnull) (hfirm.front Y ⟨Y, hY, .refl⟩)

/-! ### Rules that begin with their left side -/

/-- A nonterminal that derives the empty word does so by a rule in which it does not occur. -/
theorem exists_rule_without_lhs {A : Symbol} (h : g.Derives [A] []) :
    ∃ s ∈ g.rules, s.lhs = A ∧ A ∉ s.rhs.expansion ∧ g.Derives s.rhs.expansion [] := by
  by_contra hnone
  -- otherwise no form with `A` in it vanishes
  have hwithout : g.nullable.Vanishes [A] ∧ A ∉ [A] := by
    refine h.backward (P := fun α => g.nullable.Vanishes α ∧ A ∉ α) (fun β γ hstep hγ => ?_)
      ⟨NullableSet.vanishes_nil, List.not_mem_nil⟩
    refine ⟨hγ.1.of_step hstep, ?_⟩
    obtain ⟨hr, u, v⟩ := hstep
    rename_i r
    have hvanish : g.nullable.Vanishes r.rhs.expansion := fun X hX => hγ.1 X (by simp [hX])
    have hA : A ∉ u ∧ A ∉ r.rhs.expansion ∧ A ∉ v := by simpa using hγ.2
    rw [List.mem_append, List.mem_cons, not_or, not_or]
    refine ⟨hA.1, fun hlhs => ?_, hA.2.2⟩
    exact hnone ⟨r, hr, hlhs.symm, hA.2.1, NullableSet.vanishes_iff_derives.mp hvanish⟩
  exact hwithout.2 (List.mem_singleton.mpr rfl)

/-- One step of `BDW` from the left side of such a rule stays there, is made by another rule, or
passes the vanishing left side within the rule. -/
theorem beginsDirectly_of_front (hfront : r.rhs.head? = some r.lhs) (hr : r ∈ g.rules)
    {ns : NullableSet} {X : Symbol} (h : g.BeginsDirectly ns r.lhs X) :
    X = r.lhs ∨ (∃ s ∈ g.rules, s.lhs = r.lhs ∧ r ≠ s ∧ X ∈ ns.reachable s.rhs.expansion) ∨
      ns.contains r.lhs = true ∧ X ∈ ns.reachable r.rhs.tail := by
  obtain ⟨s, hs, hlhs, hX⟩ := h
  by_cases hrs : r = s
  · subst hrs
    rw [Production.expansion_of_head? (.inl (isNonterminal_lhs hr)) hfront,
      NullableSet.mem_reachable_cons] at hX
    exact hX.imp id .inr
  · exact .inr (.inl ⟨s, hs, hlhs, hrs, hX⟩)

/-- A terminal that begins the left side of such a rule begins another rule of it, or what stands
behind the vanishing left side within the rule. -/
theorem begins_elsewhere_of_front (hfront : r.rhs.head? = some r.lhs) (hr : r ∈ g.rules)
    {t : Symbol} (ht : t.isTerminal)
    (h : Relation.TransGen (g.BeginsDirectly g.nullable) r.lhs t) :
    (∃ s ∈ g.rules, s.lhs = r.lhs ∧ r ≠ s ∧ g.Begins s.rhs.expansion t) ∨
      g.Derives [r.lhs] [] ∧ g.Begins r.rhs.tail t := by
  -- along the way to `t`, the left side is left for the last time in one of these two ways
  generalize hA : r.lhs = A at h
  induction h using Relation.TransGen.head_induction_on with
  | single h =>
      subst hA
      rcases beginsDirectly_of_front hfront hr h with rfl | ⟨s, hs, hlhs, hrs, hX⟩ | ⟨hnull, hX⟩
      · exact absurd (isNonterminal_lhs hr) (Symbol.not_isNonterminal_of_isTerminal ht)
      · exact .inl ⟨s, hs, hlhs, hrs, t, hX, .refl⟩
      · exact .inr ⟨NullableSet.contains_iff_derives.mp hnull, t, hX, .refl⟩
  | head h hXt ih =>
      subst hA
      rcases beginsDirectly_of_front hfront hr h with rfl | ⟨s, hs, hlhs, hrs, hX⟩ | ⟨hnull, hX⟩
      · exact ih rfl
      · exact .inl ⟨s, hs, hlhs, hrs, _, hX, hXt.to_reflTransGen⟩
      · exact .inr ⟨NullableSet.contains_iff_derives.mp hnull, _, hX, hXt.to_reflTransGen⟩

/-- What begins the symbols behind the front of such a rule follows its left side. -/
theorem follows_of_begins_tail (hfront : r.rhs.head? = some r.lhs) (hr : r ∈ g.rules) {t : Symbol}
    (h : g.Begins r.rhs.tail t) : g.Follows r.lhs t := by
  obtain ⟨C, hC, ht⟩ := h
  have hnon := isNonterminal_lhs hr
  refine ⟨r.lhs, C, .refl, ⟨r, hr, NullableSet.mem_adjacent.mpr ⟨hnon, [], r.rhs.tail, ?_, hC⟩⟩, ht⟩
  exact Production.expansion_of_head? (.inl hnon) hfront

end Grammar

/-! ### Grammars that the check is tried on -/

/-- `S → S a | ϵ`, as a draft. -/
def Draft.leftList : Draft :=
  (Draft.empty (Text.bytes "G")).define (.ofChar 'S') [Symbol.word "Sa", Production.epsilon]

/-- `S → S a | ϵ`. -/
def Grammar.leftList : Grammar :=
  ⟨Text.bytes "G", Draft.leftList.definitions, Draft.leftList.wellFormed⟩

/-- `S → U a | a S | b` with `U` left undefined, as a draft. -/
def Draft.undefinedFront : Draft :=
  (Draft.empty (Text.bytes "G")).define (.ofChar 'S')
    [Symbol.word "Ua", Symbol.word "aS", Symbol.word "b"]

/-- `S → U a | a S | b` with `U` left undefined. -/
def Grammar.undefinedFront : Grammar :=
  ⟨Text.bytes "G", Draft.undefinedFront.definitions, Draft.undefinedFront.wellFormed⟩

/-- `S → A b | b`, `A → a | ϵ`, as a draft. -/
def Draft.optionalFront : Draft :=
  ((Draft.empty (Text.bytes "G")).define (.ofChar 'S') [Symbol.word "Ab", Symbol.word "b"]).define
    (.ofChar 'A') [Symbol.word "a", Production.epsilon]

/-- `S → A b | b`, `A → a | ϵ`. -/
def Grammar.optionalFront : Grammar :=
  ⟨Text.bytes "G", Draft.optionalFront.definitions, Draft.optionalFront.wellFormed⟩

/-! ### The check against the analysis -/

namespace Analysis

variable {g : Grammar} {c : Config} {r : Rule}

theorem mem_select_of_begins (hr : r ∈ g.rules) {t : Symbol} (ht : t.isTerminal)
    (h : g.Begins r.rhs.expansion t) : t ∈ (ofConfig g c).select.of r :=
  (mem_select hr).mpr (.inr (.inl ⟨ht, Grammar.begins_iff_derives.mp h⟩))

theorem mem_select_of_mem_leads (hr : r ∈ g.rules) {X : Symbol} (hX : X ∈ g.leads r.rhs)
    (hne : X ≠ .epsilon) : X ∈ (ofConfig g c).select.of r := by
  obtain ⟨hterm, hbegins⟩ := Grammar.begins_of_mem_leads hr hX hne
  exact mem_select_of_begins hr hterm hbegins

/-- **What leads can miss.**  SELECT of a rule with a firm right side holds nothing but its
leads. -/
theorem mem_leads_of_mem_select (hr : r ∈ g.rules) (hfirm : g.Firm r.rhs) {X : Symbol}
    (hX : X ∈ (ofConfig g c).select.of r) : X ∈ g.leads r.rhs := by
  rcases (mem_select hr).mp hX with ⟨-, -, h⟩ | ⟨hterm, h⟩ | ⟨h, -⟩
  · exact absurd h hfirm.whole
  · exact Grammar.mem_leads.mpr ⟨Symbol.not_isNonterminal_of_isTerminal hterm,
      Grammar.ledBy_of_begins hr hfirm (Grammar.begins_iff_derives.mpr h)⟩
  · exact absurd h hfirm.whole

/-- Rules with firm right sides are told apart by SELECT exactly when they are by their leads. -/
theorem apart_iff_leads {s : Rule} (hr : r ∈ g.rules) (hs : s ∈ g.rules) (hfr : g.Firm r.rhs)
    (hfs : g.Firm s.rhs) :
    (ofConfig g c).select.Apart r s ↔
      ∀ X, X ∈ g.leads r.rhs → X ∈ g.leads s.rhs → X = .epsilon := by
  refine ⟨fun h X hXr hXs => ?_, fun h X hXr hXs => ?_⟩
  · by_contra hne
    exact hne (h X (mem_select_of_mem_leads hr hXr hne) (mem_select_of_mem_leads hs hXs hne))
  · exact h X (mem_leads_of_mem_select hr hfr hXr) (mem_leads_of_mem_select hs hfs hXs)

theorem transGen_of_mem_first {A t : Symbol} (hA : A.isNonterminal) (ht : t.isTerminal)
    (h : t ∈ (ofConfig g c).first.of A) :
    Relation.TransGen (g.BeginsDirectly g.nullable) A t := by
  have htable : t ∈ (FirstSets.firstSets g).table.getD A := by
    rw [← FirstSets.of_nonterminal _ hA]
    exact h
  rw [FirstSets.mem_table_ofGrammar (NullableSet.onlyNonterminals_ofGrammar g)] at htable
  rcases htable with ⟨rfl, -⟩ | ⟨-, h⟩
  · cases ht
  · exact h

/-- A rule that begins with its left side is in conflict with another one, if FIRST of the left side
holds a terminal. -/
theorem conflict_of_front (hr : r ∈ g.rules) (hfront : r.rhs.head? = some r.lhs) {t : Symbol}
    (ht : t.isTerminal) (h : Relation.TransGen (g.BeginsDirectly g.nullable) r.lhs t) :
    ∃ k ∈ (ofConfig g c).conflicts, k.nonterminal = r.lhs ∧ (k.first = r ∨ k.second = r) := by
  have hne := Symbol.ne_epsilon_of_isTerminal ht
  have hown : t ∈ (ofConfig g c).select.of r := by
    refine mem_select_of_begins hr ht ⟨r.lhs, ?_, h.to_reflTransGen⟩
    rw [Production.expansion_of_head? (.inl (Grammar.isNonterminal_lhs hr)) hfront]
    exact NullableSet.mem_reachable_cons.mpr (.inl rfl)
  rcases Grammar.begins_elsewhere_of_front hfront hr ht h with
    ⟨s, hs, hlhs, hrs, hbegins⟩ | ⟨hempty, hbegins⟩
  · exact SelectSets.exists_conflict_of_ne hr hs hlhs hrs hown
      (mem_select_of_begins hs ht hbegins) hne
  · -- the left side vanishes by a rule without it, and `t` follows the left side
    obtain ⟨s, hs, hlhs, hwithout, hvanish⟩ := Grammar.exists_rule_without_lhs hempty
    have hrs : r ≠ s := by
      rintro rfl
      rw [Production.expansion_of_head? (.inl (Grammar.isNonterminal_lhs hr)) hfront] at hwithout
      exact hwithout List.mem_cons_self
    have hfb := relates_fb_of_follows (c := c) ht (Grammar.follows_of_begins_tail hfront hr hbegins)
    have hother : t ∈ (ofConfig g c).select.of s :=
      (mem_select hs).mpr (.inr (.inr ⟨hvanish, hlhs ▸ hfb, .inl ht⟩))
    exact SelectSets.exists_conflict_of_ne hr hs hlhs hrs hown hother hne

/-- **No false alarms.**  When a grammar that comes of a draft does not pass the check, the analysis
that leaves the check out finds a conflict where the check says.  Two rules that are said to share a
lead are an earlier and a later rule of the nonterminal, and in conflict over that lead.  A rule that
is said to begin with its left side takes part in a conflict if FIRST of the left side holds a
terminal. -/
theorem conflict_of_check_error {d : Draft} {settings : List Setting} {e : Error}
    (hg : d.grammar = .ok g) (hc : Config.ofSettings settings = .ok c) (hskip : c.skipCheck = true)
    (he : g.check = .error e) :
    ∃ a, g.analyze settings = .ok a ∧
      ((∃ A o r X, e = .violation (.commonPrefix A o r X) ∧ o ∈ g.rulesFor A ∧ r ∈ g.rulesFor A ∧
          o.serial < r.serial ∧ ∃ k ∈ a.conflicts, k.nonterminal = A ∧ k.first = o ∧
            k.second = r ∧ X ∈ k.symbols) ∨
        ∃ A, ∃ r ∈ g.rulesFor A, e = .violation (.leftRecursion A r) ∧
          ((∃ t ∈ a.first.of A, t.isTerminal) →
            ∃ k ∈ a.conflicts, k.nonterminal = A ∧ (k.first = r ∨ k.second = r))) := by
  refine ⟨ofConfig g c, Grammar.analyze_of_skipCheck (Draft.isEmpty_of_grammar hg) hc hskip, ?_⟩
  rcases Grammar.check_eq_error he with
    ⟨A, r, hrA, rfl, hfront⟩ | ⟨A, o, r, X, rfl, hoA, hrA, hlt, hXo, hXr, hne⟩
  · obtain ⟨hr, rfl⟩ := Grammar.mem_rulesFor.mp hrA
    refine .inr ⟨r.lhs, r, hrA, rfl, ?_⟩
    rintro ⟨t, hfirst, ht⟩
    exact conflict_of_front hr hfront ht (transGen_of_mem_first (Grammar.isNonterminal_lhs hr) ht hfirst)
  · obtain ⟨ho, rfl⟩ := Grammar.mem_rulesFor.mp hoA
    obtain ⟨hr, hlhs⟩ := Grammar.mem_rulesFor.mp hrA
    exact .inl ⟨o.lhs, o, r, X, rfl, hoA, hrA, hlt, SelectSets.exists_conflict ho hr hlhs hlt
      (mem_select_of_mem_leads ho hXo hne) (mem_select_of_mem_leads hr hXr hne) hne⟩

/-- A list in which the recursion is broken by the empty word alone: the rule that begins with its
left side is in conflict with the one written `ϵ`, over a terminal of FOLLOW. -/
theorem leftList_conflict :
    Draft.leftList.grammar = .ok Grammar.leftList ∧
      Grammar.leftList.check =
        .error (.violation (.leftRecursion (.ofChar 'S') ⟨1, .ofChar 'S', Symbol.word "Sa"⟩)) ∧
      .ofChar 'a' ∈ (ofConfig Grammar.leftList ⟨.conventionalStart, true, true⟩).first.of
        (.ofChar 'S') ∧
      ∃ k ∈ (ofConfig Grammar.leftList ⟨.conventionalStart, true, true⟩).conflicts,
        k.first = ⟨1, .ofChar 'S', Symbol.word "Sa"⟩ ∨
          k.second = ⟨1, .ofChar 'S', Symbol.word "Sa"⟩ := by
  have hg : Draft.leftList.grammar = .ok Grammar.leftList := rfl
  have he : Grammar.leftList.check = .error (.violation (.leftRecursion (.ofChar 'S')
      ⟨1, .ofChar 'S', Symbol.word "Sa"⟩)) := by decide +kernel
  have hc : Config.ofSettings [.adjacentEnds true, .skipCheck true] =
      .ok ⟨.conventionalStart, true, true⟩ := rfl
  have hfirst : .ofChar 'a' ∈ (ofConfig Grammar.leftList
      ⟨.conventionalStart, true, true⟩).first.of (.ofChar 'S') := by decide +kernel
  refine ⟨hg, he, hfirst, ?_⟩
  obtain ⟨a, ha, h⟩ := conflict_of_check_error hg hc rfl he
  obtain rfl := Grammar.eq_ofConfig_of_analyze hc ha
  rcases h with ⟨A, o, r, X, hv, -⟩ | ⟨A, r, -, hv, h⟩
  · cases hv
  · cases hv
    obtain ⟨k, hk, -, hpart⟩ := h ⟨.ofChar 'a', hfirst, rfl⟩
    exact ⟨k, hk, hpart⟩

/-- **Exactness.**  A grammar that comes of a draft and has no nullable nonterminals passes the check
exactly when no rule begins with its own left side and the analysis finds no conflicts. -/
theorem check_ok_iff_conflicts_eq_nil {d : Draft} {settings : List Setting}
    (hg : d.grammar = .ok g) (hc : Config.ofSettings settings = .ok c) (hskip : c.skipCheck = true)
    (hnull : (NullableSet.ofGrammar g).nonterminals = []) :
    ∃ a, g.analyze settings = .ok a ∧
      (g.check = .ok () ↔ (∀ r ∈ g.rules, r.rhs.head? ≠ some r.lhs) ∧ a.conflicts = []) := by
  refine ⟨ofConfig g c, Grammar.analyze_of_skipCheck (Draft.isEmpty_of_grammar hg) hc hskip, ?_⟩
  have hnone : ∀ N, ¬ g.Derives [N] [] := by
    intro N hN
    have hmem := List.contains_iff_mem.mp (NullableSet.contains_iff_derives.mpr hN)
    rw [hnull] at hmem
    exact absurd hmem List.not_mem_nil
  have hfirm : ∀ r ∈ g.rules, g.Firm r.rhs := fun r hr =>
    ⟨fun h => hnone r.lhs ((Grammar.Derives.rule hr).trans h), fun N _ => hnone N⟩
  rw [Grammar.check_eq_ok_iff, conflicts, SelectSets.conflicts_eq_nil_iff]
  refine and_congr_right fun _ => forall₂_congr fun r hr => forall₂_congr fun s hs => ?_
  exact forall₂_congr fun _ _ => (apart_iff_leads hr hs (hfirm r hr) (hfirm s hs)).symm

/-- A nonterminal in front that has no rules: it has no leads and begins nothing, and the rules
behind it are told apart. -/
theorem undefinedFront_conflicts :
    Draft.undefinedFront.grammar = .ok Grammar.undefinedFront ∧
      (NullableSet.ofGrammar Grammar.undefinedFront).nonterminals = [] ∧
      Grammar.undefinedFront.check = .ok () ∧
      (ofConfig Grammar.undefinedFront ⟨.conventionalStart, false, true⟩).conflicts = [] := by
  have hg : Draft.undefinedFront.grammar = .ok Grammar.undefinedFront := rfl
  have hc : Config.ofSettings [.skipCheck true] = .ok ⟨.conventionalStart, false, true⟩ := rfl
  have hnull : (NullableSet.ofGrammar Grammar.undefinedFront).nonterminals = [] := by
    decide +kernel
  have hcheck : Grammar.undefinedFront.check = .ok () := by decide +kernel
  obtain ⟨a, ha, h⟩ := check_ok_iff_conflicts_eq_nil hg hc rfl hnull
  obtain rfl := Grammar.eq_ofConfig_of_analyze hc ha
  exact ⟨hg, hnull, hcheck, (h.mp hcheck).2⟩

/-- **What is missed.**  In a grammar that comes of a draft and passes the check, every conflict that
the analysis finds has a rule whose right side derives the empty word, or in front of whose right
side comes a nonterminal that does. -/
theorem vanishing_lead_of_conflict {d : Draft} {settings : List Setting} (hg : d.grammar = .ok g)
    (hc : Config.ofSettings settings = .ok c) (hcheck : g.check = .ok ()) :
    ∃ a, g.analyze settings = .ok a ∧
      ∀ k ∈ a.conflicts, ∃ r, (r = k.first ∨ r = k.second) ∧
        (g.Derives r.rhs.expansion [] ∨ ∃ N, g.LedBy r.rhs N ∧ g.Derives [N] []) := by
  refine ⟨ofConfig g c, Grammar.analyze_of_check_ok (Draft.isEmpty_of_grammar hg) hc hcheck, ?_⟩
  intro k hk
  by_contra hnone
  -- otherwise both right sides are firm, and the check would have seen the conflict
  have hfirm : ∀ r, r = k.first ∨ r = k.second → g.Firm r.rhs := fun r hr =>
    ⟨fun h => hnone ⟨r, hr, .inl h⟩, fun N hN h => hnone ⟨r, hr, .inr ⟨N, hN, h⟩⟩⟩
  obtain ⟨hfirst, hsecond, hlt, -⟩ := SelectSets.mem_conflicts.mp hk
  obtain ⟨hfirst, hlhs⟩ := Grammar.mem_rulesFor.mp hfirst
  obtain ⟨hsecond, hlhs'⟩ := Grammar.mem_rulesFor.mp hsecond
  have hleads := (Grammar.check_eq_ok_iff.mp hcheck).2 k.first hfirst k.second hsecond
    (hlhs'.trans hlhs.symm) hlt
  obtain ⟨X, hX, hX', hne⟩ := SelectSets.exists_common_of_mem_conflicts hk
  exact hne ((apart_iff_leads hfirst hsecond (hfirm _ (.inl rfl)) (hfirm _ (.inr rfl))).mpr hleads
    X hX hX')

theorem check_optionalFront : Grammar.optionalFront.check = .ok () := by decide +kernel

/-- The conflict over `b` that the check misses. -/
theorem mem_conflicts_optionalFront :
    ⟨.ofChar 'S', ⟨1, .ofChar 'S', Symbol.word "Ab"⟩, ⟨2, .ofChar 'S', Symbol.word "b"⟩,
      [.ofChar 'b']⟩ ∈ (ofConfig Grammar.optionalFront .standard).conflicts := by
  decide +kernel

/-- An optional part in front: the conflict that the check misses is between two right sides neither
of which derives the empty word. -/
theorem optionalFront_conflict_of_solid :
    Draft.optionalFront.grammar = .ok Grammar.optionalFront ∧
      Grammar.optionalFront.check = .ok () ∧
      ∃ a, Grammar.optionalFront.analyze [] = .ok a ∧
        ∃ k ∈ a.conflicts, ¬ Grammar.optionalFront.Derives k.first.rhs.expansion [] ∧
          ¬ Grammar.optionalFront.Derives k.second.rhs.expansion [] := by
  have hsolid : ∀ p, (NullableSet.ofGrammar Grammar.optionalFront).derivesEmpty p = false →
      ¬ Grammar.optionalFront.Derives p.expansion [] := by
    intro p hp h
    rw [NullableSet.derivesEmpty_iff.mpr (NullableSet.vanishes_iff_derives.mpr h)] at hp
    cases hp
  exact ⟨rfl, check_optionalFront, _, Grammar.analyze_of_check_ok rfl rfl check_optionalFront, _,
    mem_conflicts_optionalFront, hsolid _ (by decide +kernel), hsolid _ (by decide +kernel)⟩

/-- An optional part in front: the first rule of the conflict that the check misses is led by a
nonterminal that derives the empty word. -/
theorem optionalFront_vanishing_lead :
    Draft.optionalFront.grammar = .ok Grammar.optionalFront ∧
      Grammar.optionalFront.check = .ok () ∧
      ∃ k ∈ (ofConfig Grammar.optionalFront .standard).conflicts,
        ∃ r, (r = k.first ∨ r = k.second) ∧
          (Grammar.optionalFront.Derives r.rhs.expansion [] ∨
            ∃ N, Grammar.optionalFront.LedBy r.rhs N ∧ Grammar.optionalFront.Derives [N] []) := by
  have hg : Draft.optionalFront.grammar = .ok Grammar.optionalFront := rfl
  have hc : Config.ofSettings [] = .ok .standard := rfl
  obtain ⟨a, ha, h⟩ := vanishing_lead_of_conflict hg hc check_optionalFront
  obtain rfl := Grammar.eq_ofConfig_of_analyze hc ha
  exact ⟨hg, check_optionalFront, _, mem_conflicts_optionalFront, h _ mem_conflicts_optionalFront⟩

end Analysis

end Lookahead
