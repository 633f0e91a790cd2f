import Lookahead.Grammar.Draft
import Lookahead.Proofs.Rules

/-!
# Gathering rules

Rules are defined one after another, several of them perhaps for one nonterminal.  `gathered` says
what definitions come of them: each nonterminal once, in the order of its first rule, with the
alternatives of all of its rules in order.

**Defining gathers** (`Draft.Gathers.define`).  A draft that gathers some rules gathers one more
after it is defined, as long as the rule is one that a grammar may hold.
-/

namespace Lookahead

namespace Definition

/-- The definitions that come of rules. -/
def gathered (rs : List (Symbol × List Production)) : List Definition :=
  (rs.map Prod.fst).eraseDups.map fun A => ⟨A, (rs.filter fun r => r.1 = A).flatMap Prod.snd⟩

/-- Extending definitions that are listed by nonterminal, where `f A` is empty for a new `A`. -/
theorem extend_map {A : Symbol} (ps : List Production) {f : Symbol → List Production}
    {As : List Symbol} (hnodup : As.Nodup) (hnew : A ∉ As → f A = []) :
    extend A ps (As.map fun B => ⟨B, f B⟩) =
      (if A ∈ As then As else As ++ [A]).map
        fun B => ⟨B, f B ++ if A = B then ps else []⟩ := by
  induction As with
  | nil => simp [extend, hnew]
  | cons B rest ih =>
      obtain ⟨hB, hrest⟩ := List.nodup_cons.mp hnodup
      rw [List.map_cons, extend]
      by_cases hAB : B = A
      · subst hAB
        have hother : ∀ C ∈ rest, ¬ B = C := fun C hC e => hB (e ▸ hC)
        simp +contextual [hother]
      · have hBA : A ≠ B := fun e => hAB e.symm
        rw [if_neg hAB, ih hrest fun h => hnew (by simp [hBA, h])]
        by_cases hA : A ∈ rest <;> simp [hA, hBA]

/-- A nonterminal without rules comes to no alternatives. -/
theorem alternatives_of_notMem {rs : List (Symbol × List Production)} {A : Symbol}
    (h : A ∉ rs.map Prod.fst) : (rs.filter fun r => r.1 = A).flatMap Prod.snd = [] := by
  have hnone : (rs.filter fun r => r.1 = A) = [] :=
    List.filter_eq_nil_iff.mpr fun r hr hlhs =>
      h (List.mem_map.mpr ⟨r, hr, of_decide_eq_true hlhs⟩)
  rw [hnone, List.flatMap_nil]

theorem gathered_concat (rs : List (Symbol × List Production)) (A : Symbol)
    (ps : List Production) : gathered (rs ++ [(A, ps)]) = extend A ps (gathered rs) := by
  have hkeys : (rs.map Prod.fst ++ [A]).eraseDups =
      if A ∈ (rs.map Prod.fst).eraseDups then (rs.map Prod.fst).eraseDups
      else (rs.map Prod.fst).eraseDups ++ [A] := by
    rw [List.eraseDups_append]
    by_cases hA : A ∈ rs.map Prod.fst <;> simp [List.removeAll, List.eraseDups_cons, hA]
  have hnew : A ∉ (rs.map Prod.fst).eraseDups →
      (rs.filter fun r => r.1 = A).flatMap Prod.snd = [] := fun hA =>
    alternatives_of_notMem fun hmem => hA (List.mem_eraseDups.mpr hmem)
  rw [gathered, gathered, extend_map ps (nodup_eraseDups _) hnew, ← hkeys, List.map_append,
    List.map_singleton]
  refine List.map_congr_left fun B _ => ?_
  by_cases hAB : A = B <;> simp [hAB]

theorem gathered_ne_nil {rs : List (Symbol × List Production)} (h : rs ≠ []) :
    gathered rs ≠ [] := by
  cases rs with
  | nil => exact absurd rfl h
  | cons r rest => simp [gathered, List.eraseDups_cons]

/-- Among definitions of different nonterminals only one is of a nonterminal. -/
theorem filter_lhs_of_nodup {ds : List Definition} (h : (ds.map Definition.lhs).Nodup) :
    ∀ d ∈ ds, (ds.filter fun e => e.lhs = d.lhs) = [d] := by
  induction ds with
  | nil => simp
  | cons d rest ih =>
      rw [List.map_cons, List.nodup_cons] at h
      intro e he
      rcases List.mem_cons.mp he with rfl | he
      · have hnone : (rest.filter fun d => d.lhs = e.lhs) = [] :=
          List.filter_eq_nil_iff.mpr fun d hd heq =>
            h.1 (List.mem_map.mpr ⟨d, hd, of_decide_eq_true heq⟩)
        rw [List.filter_cons_of_pos (by simp), hnone]
      · have hne : ¬ d.lhs = e.lhs := fun heq => h.1 (heq ▸ List.mem_map.mpr ⟨e, he, rfl⟩)
        rw [List.filter_cons_of_neg (by simpa using hne), ih h.2 e he]

/-- Definitions of different nonterminals are gathered as they are. -/
theorem gathered_of_nodup {ds : List Definition} (h : (ds.map Definition.lhs).Nodup) :
    gathered (ds.map fun d => (d.lhs, d.alternatives)) = ds := by
  have hkeys : ((ds.map fun d => (d.lhs, d.alternatives)).map Prod.fst).eraseDups =
      ds.map Definition.lhs := by
    rw [List.map_map]
    exact eraseDups_of_nodup h
  rw [gathered, hkeys, List.map_map]
  calc ds.map _ = ds.map id := List.map_congr_left fun d hd => by
        simp [List.filter_map, Function.comp_def, filter_lhs_of_nodup h d hd]
    _ = ds := List.map_id ds

section Members

variable {rs : List (Symbol × List Production)} {d : Definition}

/-- An alternative of a gathered definition is one of a rule. -/
theorem exists_of_mem_alternatives (hd : d ∈ gathered rs) {p : Production}
    (hp : p ∈ d.alternatives) : ∃ r ∈ rs, p ∈ r.2 := by
  obtain ⟨A, -, rfl⟩ := List.mem_map.mp hd
  obtain ⟨r, hr, hp⟩ := List.mem_flatMap.mp hp
  exact ⟨r, (List.mem_filter.mp hr).1, hp⟩

/-- A gathered definition has all alternatives of some rule. -/
theorem exists_of_mem_gathered (hd : d ∈ gathered rs) :
    ∃ r ∈ rs, ∀ p ∈ r.2, p ∈ d.alternatives := by
  obtain ⟨A, hA, rfl⟩ := List.mem_map.mp hd
  obtain ⟨r, hr, rfl⟩ := List.mem_map.mp (List.mem_eraseDups.mp hA)
  refine ⟨r, hr, fun p hp => List.mem_flatMap.mpr ⟨r, ?_, hp⟩⟩
  exact List.mem_filter.mpr ⟨hr, decide_eq_true rfl⟩

end Members

end Definition

namespace Draft

/-- A draft without fault whose definitions come of rules. -/
structure Gathers (d : Draft) (name : List UInt8) (rs : List (Symbol × List Production)) :
    Prop where
  name : d.name = name
  definitions : d.definitions = Definition.gathered rs
  fault? : d.fault? = none

variable {d : Draft} {name : List UInt8} {rs : List (Symbol × List Production)}

theorem gathers_empty (name : List UInt8) : (empty name).Gathers name [] := ⟨rfl, rfl, rfl⟩

theorem Gathers.define (h : d.Gathers name rs) {A : Symbol} (hA : A.isNonterminal)
    {ps : List Production} (hps : ∀ p ∈ ps, p.Proper) :
    (d.define A ps).Gathers name (rs ++ [(A, ps)]) := by
  have hnone : ∀ p ∈ ps, p.fault? = none := fun p hp => Production.fault?_eq_none_iff.mpr (hps p hp)
  have hfilter : (ps.filter fun p => p.fault?.isNone) = ps :=
    List.filter_eq_self.mpr fun p hp => by rw [hnone p hp, Option.isNone_none]
  have hfault : faultAmong? A ps = none :=
    List.findSome?_eq_none_iff.mpr fun p hp => by rw [hnone p hp, Option.map_none]
  refine ⟨?_, ?_, ?_⟩
  · simpa [Draft.define, hA] using h.name
  · rw [Definition.gathered_concat, ← h.definitions]
    simp [Draft.define, hA, hfilter]
  · simp [Draft.define, hA, hfault, h.fault?]

theorem Gathers.grammar_nil (h : d.Gathers name []) : d.grammar = .error .empty := by
  simp [Draft.grammar, h.fault?, h.definitions, Definition.gathered]

theorem Gathers.grammar (h : d.Gathers name rs) (hrs : rs ≠ []) :
    ∃ g, d.grammar = .ok g ∧ g.name = name ∧ g.definitions = Definition.gathered rs := by
  have hne : d.definitions ≠ [] := h.definitions ▸ Definition.gathered_ne_nil hrs
  refine ⟨⟨d.name, d.definitions, d.wellFormed⟩, ?_, h.name, h.definitions⟩
  simp [Draft.grammar, h.fault?, hne]

end Draft

end Lookahead
