import Lookahead.Grammar.Basic

/-!
# The rules of a grammar

What the rules of a grammar look like: a rule is an alternative of a definition, its left side is a
defined nonterminal, its right side is proper, and its number is its place among all rules.  Every
symbol of a rule occurs in the grammar.

Symbols are listed in order of first appearance, so the module begins with the lists that come of
erasing repetitions.
-/

namespace Lookahead

/-! ### Lists without repetitions -/

section Distinct

variable {α : Type} [BEq α] [LawfulBEq α]

theorem nodup_eraseDups (l : List α) : l.eraseDups.Nodup := by
  cases l with
  | nil => simp
  | cons a rest =>
      rw [List.eraseDups_cons, List.nodup_cons, List.mem_eraseDups]
      exact ⟨by simp, nodup_eraseDups _⟩
termination_by l.length
decreasing_by exact Nat.lt_succ_of_le (List.length_filter_le _ _)

theorem eraseDups_of_nodup {l : List α} (h : l.Nodup) : l.eraseDups = l := by
  induction l with
  | nil => rfl
  | cons a rest ih =>
      obtain ⟨ha, hrest⟩ := List.nodup_cons.mp h
      have hfilter : rest.filter (fun b => !b == a) = rest := by
        refine List.filter_eq_self.mpr fun b hb => ?_
        have hne : b ≠ a := fun e => ha (e ▸ hb)
        simp [hne]
      rw [List.eraseDups_cons, hfilter, ih hrest]

/-- Erasing repetitions keeps what stood first without any. -/
theorem eraseDups_append_of_nodup {l : List α} (h : l.Nodup) (more : List α) :
    (l ++ more).eraseDups = l ++ (more.removeAll l).eraseDups := by
  rw [List.eraseDups_append, eraseDups_of_nodup h]

end Distinct

/-! ### Kinds of symbols -/

namespace Symbol

theorem isEpsilon_iff {X : Symbol} : X.isEpsilon = true ↔ X = .epsilon := by
  cases X <;> simp [isEpsilon]

theorem isEndMarker_iff {X : Symbol} : X.isEndMarker = true ↔ X = .endMarker := by
  cases X <;> simp [isEndMarker]

theorem not_isNonterminal_of_isTerminal {X : Symbol} (h : X.isTerminal) : ¬ X.isNonterminal := by
  cases X <;> simp_all [isTerminal, isNonterminal]

theorem ne_epsilon_of_isTerminal {X : Symbol} (h : X.isTerminal) : X ≠ .epsilon := by
  rintro rfl
  cases h

theorem ne_endMarker_of_isTerminal {X : Symbol} (h : X.isTerminal) : X ≠ .endMarker := by
  rintro rfl
  cases h

end Symbol

namespace Grammar

variable {g : Grammar} {r : Rule}

/-! ### Sides and numbers -/

theorem mem_sides {A : Symbol} {p : Production} :
    (A, p) ∈ g.sides ↔ ∃ d ∈ g.definitions, d.lhs = A ∧ p ∈ d.alternatives := by
  simp only [sides, List.mem_flatMap, List.mem_map, Prod.mk.injEq]
  refine ⟨?_, ?_⟩
  · rintro ⟨d, hd, q, hq, hlhs, rfl⟩
    exact ⟨d, hd, hlhs, hq⟩
  · rintro ⟨d, hd, hlhs, hp⟩
    exact ⟨d, hd, p, hp, hlhs, rfl⟩

/-- The left and right sides of the rules are all sides. -/
theorem map_rules (g : Grammar) : g.rules.map (fun r => (r.lhs, r.rhs)) = g.sides := by
  rw [rules, List.map_map]
  exact List.zipIdx_map_fst 1 g.sides

/-- The rule at a place has the sides found there and is numbered from one. -/
theorem getElem?_rules (g : Grammar) (i : Nat) :
    g.rules[i]? = g.sides[i]?.map fun side => ⟨i + 1, side.1, side.2⟩ := by
  rw [rules, List.getElem?_map, List.getElem?_zipIdx]
  cases g.sides[i]? with
  | none => rfl
  | some side => simp [Nat.add_comm]

theorem serial_of_getElem? {i : Nat} (h : g.rules[i]? = some r) : r.serial = i + 1 := by
  rw [getElem?_rules, Option.map_eq_some_iff] at h
  obtain ⟨side, -, rfl⟩ := h
  rfl

/-- A rule stands at the place its number says. -/
theorem getElem?_of_mem_rules (hr : r ∈ g.rules) :
    r.serial ≠ 0 ∧ g.rules[r.serial - 1]? = some r := by
  obtain ⟨i, hi⟩ := List.mem_iff_getElem?.mp hr
  rw [serial_of_getElem? hi]
  exact ⟨Nat.succ_ne_zero i, hi⟩

theorem mem_sides_of_mem_rules (hr : r ∈ g.rules) : (r.lhs, r.rhs) ∈ g.sides := by
  obtain ⟨i, hi⟩ := List.mem_iff_getElem?.mp hr
  rw [getElem?_rules, Option.map_eq_some_iff] at hi
  obtain ⟨side, hside, rfl⟩ := hi
  exact List.mem_of_getElem? hside

/-- A rule is an alternative of the definition of its left side. -/
theorem definition_of_mem_rules (hr : r ∈ g.rules) :
    ∃ d ∈ g.definitions, d.lhs = r.lhs ∧ r.rhs ∈ d.alternatives :=
  mem_sides.mp (mem_sides_of_mem_rules hr)

theorem mem_rulesFor {A : Symbol} : r ∈ g.rulesFor A ↔ r ∈ g.rules ∧ r.lhs = A := by
  rw [rulesFor, List.mem_filter, decide_eq_true_eq]

theorem mem_productions {A : Symbol} {p : Production} :
    p ∈ g.productions A ↔ ∃ r ∈ g.rules, r.lhs = A ∧ r.rhs = p := by
  simp only [productions, List.mem_map, mem_rulesFor, and_assoc]

/-- Rules with one number are one rule. -/
theorem eq_of_serial_eq {s : Rule} (hr : r ∈ g.rules) (hs : s ∈ g.rules)
    (h : r.serial = s.serial) : r = s := by
  have hget := (getElem?_of_mem_rules hr).2
  rw [h, (getElem?_of_mem_rules hs).2] at hget
  exact (Option.some.inj hget).symm

theorem eq_of_serial_eq_of_mem_rulesFor {A : Symbol} {s : Rule} (hr : r ∈ g.rulesFor A)
    (hs : s ∈ g.rulesFor A) (h : r.serial = s.serial) : r = s :=
  eq_of_serial_eq (mem_rulesFor.mp hr).1 (mem_rulesFor.mp hs).1 h

/-- Rules are listed in the order of their numbers. -/
theorem pairwise_serial_rules (g : Grammar) :
    g.rules.Pairwise fun r s => r.serial < s.serial := by
  rw [List.pairwise_iff_getElem]
  intro i j hi hj hij
  rw [serial_of_getElem? (List.getElem?_eq_getElem hi),
    serial_of_getElem? (List.getElem?_eq_getElem hj)]
  exact Nat.succ_lt_succ hij

theorem pairwise_serial_rulesFor (g : Grammar) (A : Symbol) :
    (g.rulesFor A).Pairwise fun r s => r.serial < s.serial :=
  (pairwise_serial_rules g).sublist List.filter_sublist

/-- The rules of a nonterminal that stand before one of them are those with smaller numbers. -/
theorem mem_before_iff_serial_lt {A : Symbol} {s : Rule} {before behind : List Rule}
    (h : g.rulesFor A = before ++ r :: behind) :
    s ∈ before ↔ s ∈ g.rulesFor A ∧ s.serial < r.serial := by
  have hpairs := pairwise_serial_rulesFor g A
  rw [h] at hpairs ⊢
  obtain ⟨-, hbehind, hbefore⟩ := List.pairwise_append.mp hpairs
  refine ⟨fun hs => ⟨List.mem_append_left _ hs, hbefore s hs r List.mem_cons_self⟩, ?_⟩
  rintro ⟨hs, hlt⟩
  refine (List.mem_append.mp hs).resolve_right fun hs => ?_
  rcases List.mem_cons.mp hs with rfl | hs
  · exact absurd hlt (Nat.lt_irrefl _)
  · exact absurd hlt (Nat.lt_asymm ((List.pairwise_cons.mp hbehind).1 s hs))

/-- One rule of a nonterminal stands before another if its number is smaller. -/
theorem sublist_rulesFor {A : Symbol} {s : Rule} :
    [r, s].Sublist (g.rulesFor A) ↔
      r ∈ g.rulesFor A ∧ s ∈ g.rulesFor A ∧ r.serial < s.serial := by
  refine ⟨fun h => ⟨h.subset (by simp), h.subset (by simp),
    List.pairwise_iff_forall_sublist.mp (pairwise_serial_rulesFor g A) h⟩, ?_⟩
  rintro ⟨hr, hs, hlt⟩
  obtain ⟨before, behind, hsplit⟩ := List.append_of_mem hs
  have hbefore : r ∈ before := (mem_before_iff_serial_lt hsplit).mpr ⟨hr, hlt⟩
  rw [hsplit]
  exact (List.singleton_sublist.mpr hbefore).append (List.singleton_sublist.mpr List.mem_cons_self)

/-! ### Left and right sides -/

theorem mem_nonterminals_of_mem_rules (hr : r ∈ g.rules) : r.lhs ∈ g.nonterminals := by
  obtain ⟨d, hd, hlhs, -⟩ := definition_of_mem_rules hr
  exact List.mem_map.mpr ⟨d, hd, hlhs⟩

theorem isNonterminal_of_mem_nonterminals {A : Symbol} (h : A ∈ g.nonterminals) :
    A.isNonterminal := by
  obtain ⟨d, hd, rfl⟩ := List.mem_map.mp h
  exact g.wellFormed.nonterminal d hd

theorem isNonterminal_lhs (hr : r ∈ g.rules) : r.lhs.isNonterminal :=
  isNonterminal_of_mem_nonterminals (mem_nonterminals_of_mem_rules hr)

theorem proper_rhs (hr : r ∈ g.rules) : r.rhs.Proper := by
  obtain ⟨d, hd, -, hp⟩ := definition_of_mem_rules hr
  exact g.wellFormed.proper d hd _ hp

theorem defines_iff {A : Symbol} : g.defines A = true ↔ A ∈ g.nonterminals :=
  List.contains_iff_mem

/-! ### Occurrences -/

theorem mem_occurrences_of_mem_nonterminals {A : Symbol} (h : A ∈ g.nonterminals) :
    A ∈ g.occurrences := by
  obtain ⟨d, hd, rfl⟩ := List.mem_map.mp h
  exact List.mem_flatMap.mpr ⟨d, hd, by simp⟩

theorem mem_occurrences_of_mem_rhs (hr : r ∈ g.rules) {X : Symbol} (hX : X ∈ r.rhs) :
    X ∈ g.occurrences := by
  obtain ⟨d, hd, -, hp⟩ := definition_of_mem_rules hr
  exact List.mem_flatMap.mpr
    ⟨d, hd, List.mem_cons_of_mem _ (List.mem_flatten.mpr ⟨_, hp, hX⟩)⟩

theorem mem_referenced {A : Symbol} :
    A ∈ g.referenced ↔ A ∈ g.occurrences ∧ A.isNonterminal := by
  rw [referenced, List.mem_eraseDups, List.mem_filter]

theorem mem_referenced_of_mem_rules (hr : r ∈ g.rules) : r.lhs ∈ g.referenced :=
  mem_referenced.mpr
    ⟨mem_occurrences_of_mem_nonterminals (mem_nonterminals_of_mem_rules hr), isNonterminal_lhs hr⟩

theorem mem_terminals {t : Symbol} : t ∈ g.terminals ↔ t ∈ g.occurrences ∧ t.isTerminal := by
  rw [terminals, List.mem_eraseDups, List.mem_filter]

end Grammar

end Lookahead
