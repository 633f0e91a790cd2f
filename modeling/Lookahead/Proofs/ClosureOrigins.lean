import Lookahead.Proofs.Origins
import Lookahead.Proofs.Rules

/-!
# How the pairs of a closure came there

The closure of a seed is grown in three stages: the pairs of the seed come first and are direct, the
passes add transitive pairs behind them, and in the end the symbols of the universe are related to
themselves.  A pair keeps the origin it came with, so the stage that finds a pair first decides.  In
a cycle a symbol is related to itself by transitivity, and it is then not marked reflexive even if
the universe has it.

`Marked` is the invariant of the passes: the pairs of the seed stand first and are direct, and all
others are transitive.

**Closures** (`closureOf_close`).  The closure of a seed holds what chains of its pairs lead to and
the symbols of the universe but `ϵ` with themselves.  It is transitive and reflexive over the
universe, the origin of a pair says which of these reasons came first, and the pairs of the seed
stand in front in their own order.
-/

namespace Lookahead.Relation

variable {r seed : Relation} {ps : List Pair} {o : Origin} {tag : RelationTag}
  {univ : List Symbol} {a b : Symbol}

/-! ### Pairs in order of insertion -/

theorem pairs_insert_of_notMem {p : Pair} (hp : p ∉ r) : (r.insert p o).pairs = r.pairs ++ [p] := by
  rw [insert, if_neg fun h => hp (List.contains_iff_mem.mp h)]

/-- Inserted pairs go behind those that are there, in their own order and without repetitions. -/
theorem exists_pairs_insertAll (r : Relation) (ps : List Pair) (o : Origin) :
    ∃ later, (r.insertAll ps o).pairs = r.pairs ++ later ∧ later.Sublist ps := by
  induction ps generalizing r with
  | nil => exact ⟨[], (List.append_nil _).symm, List.Sublist.refl _⟩
  | cons p rest ih =>
      obtain ⟨later, hlater, hsub⟩ := ih (r.insert p o)
      have hstep : (r.insertAll (p :: rest) o).pairs = (r.insert p o).pairs ++ later := hlater
      by_cases hp : p ∈ r
      · exact ⟨later, by rw [hstep, insert_of_mem hp], hsub.cons p⟩
      · exact ⟨p :: later, by rw [hstep, pairs_insert_of_notMem hp, ← List.append_cons],
          hsub.cons_cons p⟩

/-- Pairs that do not repeat are inserted one behind the other. -/
theorem pairs_insertAll_of_nodup (hps : ps.Nodup) (hnew : ∀ p ∈ ps, p ∉ r) :
    (r.insertAll ps o).pairs = r.pairs ++ ps := by
  induction ps generalizing r with
  | nil => exact (List.append_nil _).symm
  | cons p rest ih =>
      obtain ⟨hp, hrest⟩ := List.nodup_cons.mp hps
      obtain ⟨hpr, hnew⟩ := List.forall_mem_cons.mp hnew
      have hnew' : ∀ q ∈ rest, q ∉ r.insert p o := by
        intro q hq hmem
        rcases mem_insert.mp hmem with rfl | hmem
        · exact hp hq
        · exact hnew q hq hmem
      have hstep : (r.insertAll (p :: rest) o).pairs = (r.insert p o).pairs ++ rest :=
        ih hrest hnew'
      rw [hstep, pairs_insert_of_notMem hpr, ← List.append_cons]

theorem pairs_ofPairs (hps : ps.Nodup) : (ofPairs tag ps).pairs = ps :=
  pairs_insertAll_of_nodup hps fun p _ => not_mem_empty tag p

/-! ### The passes -/

/-- `r` begins with the pairs of the seed, which are direct, and all its other pairs are
transitive. -/
structure Marked (seed r : Relation) : Prop where
  coherent : r.Coherent
  first : ∃ later, r.pairs = seed.pairs ++ later
  origin : ∀ a b, ⟨a, b⟩ ∈ r → r.origin a b = if ⟨a, b⟩ ∈ seed then .direct else .transitive

theorem Marked.mem_of_mem_seed (h : Marked seed r) {p : Pair} (hp : p ∈ seed) : p ∈ r := by
  obtain ⟨later, hlater⟩ := h.first
  change p ∈ r.pairs
  rw [hlater]
  exact List.mem_append_left later hp

theorem marked_ofPairs (tag : RelationTag) (h : seed.Coherent) :
    Marked seed (ofPairs tag seed.pairs) where
  coherent := coherent_ofPairs tag h.writable
  first := ⟨[], by rw [pairs_ofPairs h.distinct, List.append_nil]⟩
  origin a b hab := by
    have hseed : ⟨a, b⟩ ∈ seed := mem_ofPairs.mp hab
    rw [ofPairs, (coherent_empty tag).origin_insertAll h.writable (by decide),
      if_neg (not_mem_empty tag _), if_pos hseed]
    exact if_pos hseed

/-- What a pass adds comes behind all else and is transitive. -/
theorem Marked.closePass (h : Marked seed r) : Marked seed (closePass r) where
  coherent := h.coherent.closePass
  first := by
    obtain ⟨later, hlater⟩ := h.first
    obtain ⟨more, hmore, -⟩ := exists_pairs_insertAll r (joined r.pairs r) .transitive
    exact ⟨later ++ more, by rw [Relation.closePass, hmore, hlater, List.append_assoc]⟩
  origin a b hab := by
    have hw := writable_of_mem_joined h.coherent.writable h.coherent.writable
    rw [Relation.closePass, h.coherent.origin_insertAll hw (by decide)]
    by_cases hr : ⟨a, b⟩ ∈ r
    · rw [if_pos hr]
      exact h.origin a b hr
    · have hjoined : ⟨a, b⟩ ∈ joined r.pairs r := (mem_insertAll.mp hab).resolve_right hr
      rw [if_neg hr, if_pos hjoined, if_neg fun hseed => hr (h.mem_of_mem_seed hseed)]

theorem marked_reached (tag : RelationTag) (h : seed.Coherent) :
    Marked seed (closeTransitive (ofPairs tag seed.pairs)) :=
  saturate_induction (fun _ hs => hs.closePass) _ (marked_ofPairs tag h)

/-! ### The closure -/

/-- What comes last is reflexive, unless it was there. -/
theorem origin_close (tag : RelationTag) (h : seed.Coherent) (huniv : ∀ x ∈ univ, x.Writable)
    (a b : Symbol) :
    (seed.close tag univ).origin a b =
      if ⟨a, b⟩ ∈ closeTransitive (ofPairs tag seed.pairs) then
        if ⟨a, b⟩ ∈ seed then .direct else .transitive
      else if a = b ∧ a ∈ univ ∧ a ≠ .epsilon then .reflexive else .unrelated := by
  have hmarked := marked_reached tag h
  rw [close, hmarked.coherent.origin_insertAll (writable_of_mem_diagonal huniv) (by decide)]
  simp only [mem_diagonal, Symbol.isEpsilon_iff]
  by_cases hab : ⟨a, b⟩ ∈ closeTransitive (ofPairs tag seed.pairs)
  · rw [if_pos hab, if_pos hab, hmarked.origin a b hab]
  · rw [if_neg hab, if_neg hab]

/-- The first reason for which a pair is in the closure of a seed over a universe, if there is
one, and the origin that goes with it. -/
inductive CameBy (seed : Relation) (univ : List Symbol) (a b : Symbol) : Origin → Prop where
  | direct (hmem : ⟨a, b⟩ ∈ seed) : CameBy seed univ a b .direct
  | transitive (hmem : ⟨a, b⟩ ∉ seed) (hchain : Relation.TransGen seed.Relates a b) :
      CameBy seed univ a b .transitive
  | reflexive (hchain : ¬ Relation.TransGen seed.Relates a b)
      (hself : a = b ∧ a ∈ univ ∧ a ≠ .epsilon) : CameBy seed univ a b .reflexive
  | unrelated (hchain : ¬ Relation.TransGen seed.Relates a b)
      (hself : ¬ (a = b ∧ a ∈ univ ∧ a ≠ .epsilon)) : CameBy seed univ a b .unrelated

theorem cameBy_close (tag : RelationTag) (h : seed.Coherent) (huniv : ∀ x ∈ univ, x.Writable)
    (a b : Symbol) : CameBy seed univ a b ((seed.close tag univ).origin a b) := by
  have hreached : ⟨a, b⟩ ∈ closeTransitive (ofPairs tag seed.pairs) ↔
      Relation.TransGen seed.Relates a b := relates_reached
  rw [origin_close tag h huniv]
  by_cases hchain : Relation.TransGen seed.Relates a b
  · rw [if_pos (hreached.mpr hchain)]
    by_cases hmem : ⟨a, b⟩ ∈ seed
    · rw [if_pos hmem]
      exact .direct hmem
    · rw [if_neg hmem]
      exact .transitive hmem hchain
  · rw [if_neg fun hmem => hchain (hreached.mp hmem)]
    by_cases hself : a = b ∧ a ∈ univ ∧ a ≠ .epsilon
    · rw [if_pos hself]
      exact .reflexive hchain hself
    · rw [if_neg hself]
      exact .unrelated hchain hself

namespace CameBy

theorem direct_iff (h : CameBy seed univ a b o) : o = .direct ↔ ⟨a, b⟩ ∈ seed := by
  cases h with
  | direct hmem => exact iff_of_true rfl hmem
  | transitive hmem => exact iff_of_false nofun hmem
  | reflexive hchain | unrelated hchain => exact iff_of_false nofun fun h => hchain (.single h)

theorem transitive_iff (h : CameBy seed univ a b o) :
    o = .transitive ↔ Relation.TransGen seed.Relates a b ∧ ⟨a, b⟩ ∉ seed := by
  cases h with
  | direct hmem => exact iff_of_false nofun fun h => h.2 hmem
  | transitive hmem hchain => exact iff_of_true rfl ⟨hchain, hmem⟩
  | reflexive hchain | unrelated hchain => exact iff_of_false nofun fun h => hchain h.1

theorem reflexive_iff (h : CameBy seed univ a b o) :
    o = .reflexive ↔
      (a = b ∧ a ∈ univ ∧ a ≠ .epsilon) ∧ ¬ Relation.TransGen seed.Relates a b := by
  cases h with
  | direct hmem => exact iff_of_false nofun fun h => h.2 (.single hmem)
  | transitive _ hchain => exact iff_of_false nofun fun h => h.2 hchain
  | reflexive hchain hself => exact iff_of_true rfl ⟨hself, hchain⟩
  | unrelated _ hself => exact iff_of_false nofun fun h => hself h.1

end CameBy

theorem exists_pairs_close (h : seed.Coherent) :
    ∃ later, (seed.close tag univ).pairs = seed.pairs ++ later := by
  obtain ⟨later, hlater⟩ := (marked_reached tag h).first
  obtain ⟨more, hmore, -⟩ := exists_pairs_insertAll (closeTransitive (ofPairs tag seed.pairs))
    ((univ.filter fun x => !x.isEpsilon).map fun x => ⟨x, x⟩) .reflexive
  exact ⟨later ++ more, by rw [close, hmore, hlater, List.append_assoc]⟩

theorem isTransitive_iff :
    r.isTransitive = true ↔ ∀ a b c, r.Relates a b → r.Relates b c → r.Relates a c := by
  simp only [isTransitive, List.all_eq_true, mem_image, contains_iff]
  exact ⟨fun h a b c hab hbc => h ⟨a, b⟩ hab c hbc, fun h p hp c hc => h p.left p.right c hp hc⟩

theorem isReflexiveOver_iff :
    r.isReflexiveOver univ = true ↔ ∀ x ∈ univ, ¬ x.isEpsilon → r.Relates x x := by
  simp only [isReflexiveOver, List.all_eq_true, Bool.or_eq_true, contains_iff, or_iff_not_imp_left]
  rfl

theorem isTransitive_close : (seed.close tag univ).isTransitive = true := by
  refine isTransitive_iff.mpr fun a b c hab hbc => mem_close.mpr ?_
  rcases mem_close.mp hab with hab | ⟨rfl, -⟩
  · rcases mem_close.mp hbc with hbc | ⟨rfl, -⟩
    · exact .inl (hab.trans hbc)
    · exact .inl hab
  · exact mem_close.mp hbc

theorem isReflexiveOver_close : (seed.close tag univ).isReflexiveOver univ = true :=
  isReflexiveOver_iff.mpr fun _ hx hε => mem_close.mpr (.inr ⟨rfl, hx, hε⟩)

/-- What a relation has to be for it to be the closure of a seed over a universe, with the origins
of its pairs. -/
structure ClosureOf (seed : Relation) (univ : List Symbol) (r : Relation) : Prop where
  contains_iff : ∀ a b, r.contains a b = true ↔
    Relation.TransGen seed.Relates a b ∨ a = b ∧ a ∈ univ ∧ a ≠ .epsilon
  isTransitive : r.isTransitive = true
  isReflexiveOver : r.isReflexiveOver univ = true
  direct_iff : ∀ a b, r.origin a b = .direct ↔ seed.contains a b = true
  transitive_iff : ∀ a b, r.origin a b = .transitive ↔
    Relation.TransGen seed.Relates a b ∧ seed.contains a b = false
  reflexive_iff : ∀ a b, r.origin a b = .reflexive ↔
    (a = b ∧ a ∈ univ ∧ a ≠ .epsilon) ∧ ¬ Relation.TransGen seed.Relates a b
  unrelated_iff : ∀ a b, r.origin a b = .unrelated ↔ r.contains a b = false
  seed_first : ∃ later, r.pairs = seed.pairs ++ later

/-- **Closures.**  The passes and the universe make the closure of the seed, and each pair is marked
with the reason that came first. -/
theorem closureOf_close (hseed : seed.Built) (tag : RelationTag)
    (huniv : ∀ x ∈ univ, x.Writable) : ClosureOf seed univ (seed.close tag univ) where
  contains_iff a b := by
    rw [Relation.contains_iff, ne_eq, ← Symbol.isEpsilon_iff]
    exact mem_close
  isTransitive := isTransitive_close
  isReflexiveOver := isReflexiveOver_close
  direct_iff a b := by
    rw [Relation.contains_iff]
    exact (cameBy_close tag hseed.coherent huniv a b).direct_iff
  transitive_iff a b := by
    rw [← Bool.not_eq_true, Relation.contains_iff]
    exact (cameBy_close tag hseed.coherent huniv a b).transitive_iff
  reflexive_iff a b := (cameBy_close tag hseed.coherent huniv a b).reflexive_iff
  unrelated_iff a b := by
    have hcoherent := (Built.close tag hseed huniv).coherent
    rw [← Bool.not_eq_true, Relation.contains_iff, hcoherent.mem_iff_origin, ne_eq, not_not]
  seed_first := exists_pairs_close hseed.coherent

/-- `A` and `B` lead to each other, and `B` leads to `a`. -/
def cycle : Relation :=
  ofPairs .directlyEnds
    [⟨.ofChar 'A', .ofChar 'B'⟩, ⟨.ofChar 'B', .ofChar 'A'⟩, ⟨.ofChar 'B', .ofChar 'a'⟩]

/-- The universe has `A` and `C`, but only `C` is related to itself for that reason: `A` is so by
the cycle. -/
theorem cycle_closureOf :
    let univ := [.ofChar 'A', .ofChar 'C', .epsilon]
    let closure := cycle.close .ends univ
    cycle.Built ∧ (∀ x ∈ univ, x.Writable) ∧
      closure.origin (.ofChar 'A') (.ofChar 'B') = .direct ∧
      closure.origin (.ofChar 'A') (.ofChar 'A') = .transitive ∧
      closure.origin (.ofChar 'C') (.ofChar 'C') = .reflexive ∧
      closure.origin .epsilon .epsilon = .unrelated := by
  intro univ closure
  have hseed : cycle.Built := built_ofPairs .directlyEnds (by decide)
  have huniv : ∀ x ∈ univ, x.Writable := by decide
  have h : ClosureOf cycle univ closure := closureOf_close hseed .ends huniv
  have hAB : cycle.Relates (.ofChar 'A') (.ofChar 'B') := contains_iff.mp rfl
  have hBA : cycle.Relates (.ofChar 'B') (.ofChar 'A') := contains_iff.mp rfl
  have hC : ¬ Relation.TransGen cycle.Relates (.ofChar 'C') (.ofChar 'C') := by
    intro hchain
    obtain ⟨b, hfirst, -⟩ := Relation.TransGen.head'_iff.mp hchain
    have himage : b ∈ cycle.image (.ofChar 'C') := mem_image.mpr hfirst
    exact absurd himage List.not_mem_nil
  refine ⟨hseed, huniv, (h.direct_iff _ _).mpr rfl,
    (h.transitive_iff _ _).mpr ⟨.tail (.single hAB) hBA, rfl⟩,
    (h.reflexive_iff _ _).mpr ⟨⟨rfl, by decide, by decide⟩, hC⟩,
    (h.unrelated_iff _ _).mpr (by decide +kernel)⟩

end Lookahead.Relation
