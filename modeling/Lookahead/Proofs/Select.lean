import Lookahead.Proofs.Follow

/-!
# SELECT and conflicts

SELECT of a rule holds the terminals with which what its right side derives can begin and, if the
right side derives the empty word, what comes behind the left side in `FB` (`mem_select`).  The set
may hold `ϵ` besides.  A rule whose right side derives the empty word finds the FOLLOW set that it
needs (`isSome_follow_lhs`), so nothing is lost where a missing set would be read as an empty one.

Conflicts are looked for among the rules of one nonterminal, each against those behind it
(`mem_conflicts`).  Where none is found, two different rules of a nonterminal share at most `ϵ`
(`apart_of_conflicts_eq_nil`).
-/

namespace Lookahead

/-! ### The sets -/

/-- SELECT of a rule: FIRST of a right side that is written out, and FOLLOW of the left side if the
right side can vanish. -/
theorem SelectSet.mem_ofRule {first : FirstSets} {follow : FollowSets} {r : Rule} {X : Symbol} :
    X ∈ (ofRule first follow r).set ↔
      (r.rhs ≠ .epsilon ∧ X ∈ first.ofSequence r.rhs) ∨
        (.epsilon ∈ first.ofSequence r.rhs ∧
          X ∈ (follow.of? r.lhs).getD SymbolSet.empty) := by
  by_cases hrhs : r.rhs = .epsilon
  · have hempty : .epsilon ∈ first.ofSequence r.rhs := by
      rw [FirstSets.ofSequence_eq, hrhs, Production.expansion_epsilon]
      exact SymbolSet.mem_ofList.mpr (List.mem_singleton.mpr rfl)
    have hset : (ofRule first follow r).set = (follow.of? r.lhs).getD SymbolSet.empty := by
      rw [ofRule, if_pos (Production.isEpsilon_iff.mpr hrhs)]
    simp [hset, hrhs ▸ hempty, hrhs]
  · rw [ofRule, if_neg fun h => hrhs (Production.isEpsilon_iff.mp h)]
    by_cases hempty : .epsilon ∈ first.ofSequence r.rhs
    · simp [SymbolSet.contains_iff.mpr hempty, hempty, hrhs, or_comm]
    · have hcontains : ¬ (first.ofSequence r.rhs).contains .epsilon = true :=
        fun h => hempty (SymbolSet.contains_iff.mp h)
      simp [hcontains, hempty, hrhs]

/-- Every rule of a grammar has a SELECT set. -/
theorem SelectSets.of?_ofGrammar {g : Grammar} {first : FirstSets} {follow : FollowSets}
    {r : Rule} (hr : r ∈ g.rules) :
    (ofGrammar g first follow).of? r = some (SelectSet.ofRule first follow r).set := by
  obtain ⟨hserial, hget⟩ := Grammar.getElem?_of_mem_rules hr
  rw [of?, if_neg hserial, ofGrammar, List.getElem?_map, hget]
  rfl

namespace Analysis

variable {g : Grammar} {c : Config} {r : Rule}

theorem select_of? (hr : r ∈ g.rules) :
    (ofConfig g c).select.of? r = some ((ofConfig g c).select.of r) := by
  have h : (ofConfig g c).select.of? r =
      some (SelectSet.ofRule (ofConfig g c).first (ofConfig g c).follow r).set :=
    SelectSets.of?_ofGrammar hr
  rw [SelectSets.of, h, Option.getD_some]

/-- The FOLLOW set that a rule needs is there. -/
theorem isSome_follow_lhs (hr : r ∈ g.rules) (hempty : g.Derives r.rhs.expansion []) :
    ((ofConfig g c).follow.of? r.lhs).isSome :=
  isSome_follow.mpr
    ⟨Grammar.mem_referenced_of_mem_rules hr, (Grammar.Derives.rule hr).trans hempty⟩

/-- What the set of a nonterminal holds that occurs and derives the empty word. -/
theorem mem_getD_follow {A X : Symbol} (h : ((ofConfig g c).follow.of? A).isSome) :
    X ∈ ((ofConfig g c).follow.of? A).getD SymbolSet.empty ↔
      (ofConfig g c).fb.Relates A X ∧ (X.isTerminal ∨ X = .endMarker) := by
  obtain ⟨S, hS⟩ := Option.isSome_iff_exists.mp h
  rw [hS, Option.getD_some]
  exact FollowSets.mem_of? hS

theorem mem_first_rhs {X : Symbol} (hr : r ∈ g.rules) :
    X ∈ (ofConfig g c).first.ofSequence r.rhs ↔ g.IsFirst r.rhs.expansion X := by
  rw [FirstSets.ofSequence_eq]
  exact FirstSets.mem_ofSymbols_iff_derives (Grammar.proper_rhs hr).sentential

/-- **SELECT by derivation.**  Apart from `ϵ`, SELECT of a rule holds the terminals with which what
the right side derives can begin and, if it derives the empty word, what comes behind the left
side. -/
theorem mem_select (hr : r ∈ g.rules) {X : Symbol} :
    X ∈ (ofConfig g c).select.of r ↔
      (X = .epsilon ∧ r.rhs ≠ .epsilon ∧ g.Derives r.rhs.expansion []) ∨
        (X.isTerminal ∧ ∃ γ, g.Derives r.rhs.expansion (X :: γ)) ∨
        (g.Derives r.rhs.expansion [] ∧ (ofConfig g c).fb.Relates r.lhs X ∧
          (X.isTerminal ∨ X = .endMarker)) := by
  have hset : (ofConfig g c).select.of r =
      (SelectSet.ofRule (ofConfig g c).first (ofConfig g c).follow r).set :=
    Option.some.inj ((select_of? hr).symm.trans (SelectSets.of?_ofGrammar hr))
  have hempty : .epsilon ∈ (ofConfig g c).first.ofSequence r.rhs ↔
      g.Derives r.rhs.expansion [] :=
    (mem_first_rhs hr).trans Grammar.isFirst_epsilon
  rw [hset, SelectSet.mem_ofRule, hempty, mem_first_rhs hr, ← or_assoc]
  refine or_congr ⟨?_, ?_⟩ (and_congr_right fun h => mem_getD_follow (isSome_follow_lhs hr h))
  · rintro ⟨hne, ⟨hX, h⟩ | h⟩
    · exact .inl ⟨hX, hne, h⟩
    · exact .inr h
  · rintro (⟨hX, hne, h⟩ | ⟨hX, h⟩)
    · exact ⟨hne, .inl ⟨hX, h⟩⟩
    · refine ⟨fun hrhs => ?_, .inr ⟨hX, h⟩⟩
      -- from nothing, nothing is derived
      obtain ⟨γ, hγ⟩ := h
      rw [hrhs, Production.expansion_epsilon] at hγ
      obtain ⟨Y, hY, -⟩ := Grammar.begins_iff_derives.mpr ⟨γ, hγ⟩
      exact absurd (NullableSet.mem_of_mem_reachable hY) List.not_mem_nil

end Analysis

/-! ### Conflicts -/

namespace SelectSets

variable {g : Grammar} {sel : SelectSets}

/-- The rules are told apart by every symbol but `ϵ`. -/
def Apart (sel : SelectSets) (r s : Rule) : Prop :=
  ∀ X, X ∈ sel.of r → X ∈ sel.of s → X = .epsilon

/-- The symbols other than `ϵ` that choose both of two rules. -/
abbrev common (sel : SelectSets) (r s : Rule) : List Symbol :=
  ((sel.of r).intersection (sel.of s)).filter fun X => !X.isEpsilon

theorem mem_common {r s : Rule} {X : Symbol} :
    X ∈ sel.common r s ↔ X ∈ sel.of r ∧ X ∈ sel.of s ∧ X ≠ .epsilon := by
  rw [common, List.mem_filter, SymbolSet.mem_intersection, Bool.not_eq_true', ← Bool.not_eq_true,
    Symbol.isEpsilon_iff, and_assoc]

theorem conflict?_eq_some {A : Symbol} {r s : Rule} {k : Conflict} :
    sel.conflict? A r s = some k ↔ k = ⟨A, r, s, sel.common r s⟩ ∧ k.symbols ≠ [] := by
  unfold conflict?
  split
  · rename_i h
    rw [common, h]
    simp +contextual
  · rename_i h
    refine ⟨fun hk => ?_, fun hk => by rw [hk.1]⟩
    obtain rfl := Option.some.inj hk
    exact ⟨rfl, h⟩

/-- Each rule is compared with those behind it. -/
theorem mem_conflictsAmong {A : Symbol} {rs : List Rule} {k : Conflict} :
    k ∈ sel.conflictsAmong A rs ↔
      ∃ r s, [r, s].Sublist rs ∧ sel.conflict? A r s = some k := by
  induction rs with
  | nil => simp [conflictsAmong]
  | cons q rest ih =>
      rw [conflictsAmong, List.mem_append, List.mem_filterMap, ih]
      refine ⟨?_, ?_⟩
      · rintro (⟨s, hs, hk⟩ | ⟨r, s, hrs, hk⟩)
        · exact ⟨q, s, .cons_cons q (List.singleton_sublist.mpr hs), hk⟩
        · exact ⟨r, s, .cons q hrs, hk⟩
      · rintro ⟨r, s, hrs, hk⟩
        cases hrs with
        | cons _ hrs => exact .inr ⟨r, s, hrs, hk⟩
        | cons_cons _ hs => exact .inl ⟨s, List.singleton_sublist.mp hs, hk⟩

/-- **Conflicts.**  A conflict is between two rules of a nonterminal, the earlier one first, and its
symbols are those other than `ϵ` that choose both; there is at least one. -/
theorem mem_conflicts {k : Conflict} :
    k ∈ sel.conflicts g ↔
      k.first ∈ g.rulesFor k.nonterminal ∧ k.second ∈ g.rulesFor k.nonterminal ∧
        k.first.serial < k.second.serial ∧
        k.symbols = sel.common k.first k.second ∧ k.symbols ≠ [] := by
  simp only [conflicts, List.mem_flatMap, mem_conflictsAmong, conflict?_eq_some,
    Grammar.sublist_rulesFor]
  refine ⟨?_, ?_⟩
  · rintro ⟨A, -, r, s, ⟨hr, hs, hlt⟩, rfl, hne⟩
    exact ⟨hr, hs, hlt, rfl, hne⟩
  · rintro ⟨hr, hs, hlt, hsymbols, hne⟩
    obtain ⟨hmem, hlhs⟩ := Grammar.mem_rulesFor.mp hr
    refine ⟨k.nonterminal, hlhs ▸ Grammar.mem_nonterminals_of_mem_rules hmem, k.first, k.second,
      ⟨hr, hs, hlt⟩, ?_, hne⟩
    rw [← hsymbols]

/-- The rules of a conflict are not told apart. -/
theorem exists_common_of_mem_conflicts {k : Conflict} (hk : k ∈ sel.conflicts g) :
    ∃ X, X ∈ sel.of k.first ∧ X ∈ sel.of k.second ∧ X ≠ .epsilon := by
  obtain ⟨-, -, -, hsymbols, hne⟩ := mem_conflicts.mp hk
  obtain ⟨X, hX⟩ := List.exists_mem_of_ne_nil _ hne
  exact ⟨X, mem_common.mp (hsymbols ▸ hX)⟩

/-- A symbol other than `ϵ` that chooses two rules of a nonterminal makes a conflict of them. -/
theorem exists_conflict {r s : Rule} {X : Symbol} (hr : r ∈ g.rules) (hs : s ∈ g.rules)
    (hlhs : s.lhs = r.lhs) (hlt : r.serial < s.serial) (hXr : X ∈ sel.of r) (hXs : X ∈ sel.of s)
    (hne : X ≠ .epsilon) :
    ∃ k ∈ sel.conflicts g, k.nonterminal = r.lhs ∧ k.first = r ∧ k.second = s ∧
      X ∈ k.symbols := by
  have hX : X ∈ sel.common r s := mem_common.mpr ⟨hXr, hXs, hne⟩
  exact ⟨⟨r.lhs, r, s, sel.common r s⟩, mem_conflicts.mpr
    ⟨Grammar.mem_rulesFor.mpr ⟨hr, rfl⟩, Grammar.mem_rulesFor.mpr ⟨hs, hlhs⟩, hlt, rfl,
      List.ne_nil_of_mem hX⟩, rfl, rfl, rfl, hX⟩

/-- Whichever of two rules comes first, such a symbol makes a conflict in which both take part. -/
theorem exists_conflict_of_ne {r s : Rule} {X : Symbol} (hr : r ∈ g.rules) (hs : s ∈ g.rules)
    (hlhs : s.lhs = r.lhs) (hrs : r ≠ s) (hXr : X ∈ sel.of r) (hXs : X ∈ sel.of s)
    (hne : X ≠ .epsilon) :
    ∃ k ∈ sel.conflicts g, k.nonterminal = r.lhs ∧ (k.first = r ∨ k.second = r) := by
  rcases Nat.lt_trichotomy r.serial s.serial with hlt | heq | hlt
  · obtain ⟨k, hk, hA, hfirst, -⟩ := exists_conflict hr hs hlhs hlt hXr hXs hne
    exact ⟨k, hk, hA, .inl hfirst⟩
  · exact absurd (Grammar.eq_of_serial_eq hr hs heq) hrs
  · obtain ⟨k, hk, hA, -, hsecond, -⟩ := exists_conflict hs hr hlhs.symm hlt hXs hXr hne
    exact ⟨k, hk, hA.trans hlhs, .inr hsecond⟩

/-- There are no conflicts exactly when the rules of every nonterminal are told apart. -/
theorem conflicts_eq_nil_iff :
    sel.conflicts g = [] ↔
      ∀ r ∈ g.rules, ∀ s ∈ g.rules, s.lhs = r.lhs → r.serial < s.serial → sel.Apart r s := by
  refine ⟨fun h r hr s hs hlhs hlt X hXr hXs => ?_, fun h => ?_⟩
  · by_contra hne
    obtain ⟨k, hk, -⟩ := exists_conflict hr hs hlhs hlt hXr hXs hne
    rw [h] at hk
    exact absurd hk List.not_mem_nil
  · refine List.eq_nil_iff_forall_not_mem.mpr fun k hk => ?_
    obtain ⟨X, hXr, hXs, hne⟩ := exists_common_of_mem_conflicts hk
    obtain ⟨hr, hs, hlt, -, -⟩ := mem_conflicts.mp hk
    obtain ⟨hr, hrA⟩ := Grammar.mem_rulesFor.mp hr
    obtain ⟨hs, hsA⟩ := Grammar.mem_rulesFor.mp hs
    exact hne (h k.first hr k.second hs (hsA.trans hrA.symm) hlt X hXr hXs)

/-- **Without conflicts**, different rules of a nonterminal are told apart. -/
theorem apart_of_conflicts_eq_nil (h : sel.conflicts g = []) {r s : Rule} (hr : r ∈ g.rules)
    (hs : s ∈ g.rules) (hlhs : s.lhs = r.lhs) (hne : r ≠ s) : sel.Apart r s := by
  intro X hXr hXs
  by_contra hX
  obtain ⟨k, hk, -⟩ := exists_conflict_of_ne hr hs hlhs hne hXr hXs hX
  rw [h] at hk
  exact absurd hk List.not_mem_nil

end SelectSets

end Lookahead
