import Lookahead.Proofs.ClosureOrigins
import Lookahead.Proofs.Neighbours

/-!
# Where the seed relations come from

A scan takes up a symbol before it asks whether the symbol is nullable, so it reaches a place of a
production exactly when there are only nullable symbols on the way to it, wherever the scan starts
and in whichever direction it goes.  This module reads the seed relations off the productions as
they are written, place by place.  The set of nullable nonterminals may come from anywhere, from
another grammar as well: nothing is asked of it but which symbols it contains.

Two lists of pairs are sorted.  The pairs of the end adjacency are told apart before they are
sorted; those of `DEO` are sorted with their repetitions, and the relation drops a pair that it
holds already, so that they increase in the end as well (`Relation.pairwise_pairs_ofPairs_sort`).

**Seeds** (`Grammar.seeds_iff_written`).  `BDW`, `FDB`, `DEO` and the end adjacency hold the pairs
that the productions show, and no others; `DEO` and the end adjacency list them in increasing order.
-/

namespace Lookahead

/-! ### Sorted pairs in a relation -/

/-- A relation that is made of sorted pairs lists them in increasing order, without the
repetitions. -/
theorem Relation.pairwise_pairs_ofPairs_sort (tag : RelationTag) (ps : List Pair) :
    (ofPairs tag (Pair.sort ps)).pairs.Pairwise (· < ·) := by
  obtain ⟨later, hlater, hsub⟩ := exists_pairs_insertAll (empty tag) (Pair.sort ps) .direct
  have hpairs : (ofPairs tag (Pair.sort ps)).pairs = later := hlater
  have hnodup : later.Nodup := hpairs ▸ distinct_ofPairs tag (Pair.sort ps)
  rw [hpairs]
  exact Pair.pairwise_lt_of_nodup ((Pair.pairwise_not_lt_sort ps).sublist hsub) hnodup

/-! ### Places in a production -/

namespace NullableSet

variable {ns : NullableSet} {X Y : Symbol} {α : List Symbol}

/-- `Y` is adjacent to a nonterminal `X` that stands somewhere before it, if all symbols between
them vanish. -/
theorem mem_adjacent_iff_between :
    ⟨X, Y⟩ ∈ ns.adjacent α ↔
      X.isNonterminal ∧ ∃ u w v, α = u ++ X :: (w ++ Y :: v) ∧ ns.Vanishes w := by
  rw [mem_adjacent]
  refine and_congr_right fun _ => ⟨?_, ?_⟩
  · rintro ⟨u, rest, rfl, hY⟩
    obtain ⟨w, v, rfl, hw⟩ := mem_reachable.mp hY
    exact ⟨u, w, v, rfl, hw⟩
  · rintro ⟨u, w, v, rfl, hw⟩
    exact ⟨u, w ++ Y :: v, rfl, mem_reachable.mpr ⟨w, v, rfl, hw⟩⟩

end NullableSet

/-! ### Places in the rules -/

namespace Grammar

variable {g : Grammar} {ns : NullableSet} {A X Y : Symbol}

theorem beginsDirectly_iff_written :
    g.BeginsDirectly ns A X ↔
      ∃ r ∈ g.rules, r.rhs ≠ Production.epsilon ∧ r.lhs = A ∧
        ∃ u v, r.rhs = u ++ X :: v ∧ ns.Vanishes u := by
  rw [beginsDirectly_iff_writtenRules]
  simp only [mem_writtenRules, NullableSet.mem_reachable, and_assoc]

theorem endsDirectly_iff_written :
    g.EndsDirectly ns X A ↔
      ∃ r ∈ g.rules, r.rhs ≠ Production.epsilon ∧ r.lhs = A ∧
        ∃ u v, r.rhs = u ++ X :: v ∧ ns.Vanishes v := by
  rw [endsDirectly_iff_writtenRules]
  simp only [mem_writtenRules, NullableSet.mem_reachable_reverse, and_assoc]

/-- A production written `ϵ` has no place for two symbols, so all rules may be asked. -/
theorem mem_endAdjacency_iff_next :
    ⟨X, Y⟩ ∈ g.endAdjacency ns ↔
      ns.contains X = true ∧ Y.isTerminal ∧ ∃ r ∈ g.rules, ∃ u v, r.rhs = u ++ X :: Y :: v := by
  rw [mem_endAdjacency, and_assoc]
  refine and_congr_right fun _ => and_congr_right fun _ => ⟨?_, ?_⟩
  · rintro ⟨r, hr, u, v, hrhs⟩
    refine ⟨r, (mem_writtenRules.mp hr).1, u, v, ?_⟩
    rw [← hrhs, List.append_assoc]
    rfl
  · rintro ⟨r, hr, u, v, hrhs⟩
    have hinside : [X, Y] <:+: r.rhs := ⟨u, v, by rw [hrhs, List.append_assoc]; rfl⟩
    refine ⟨r, mem_writtenRules.mpr ⟨hr, fun hε => ?_⟩, hinside⟩
    have hlength : 2 ≤ Production.epsilon.length := hε ▸ hinside.length_le
    exact absurd hlength (by decide)

/-- The end adjacency increases: its pairs are told apart before they are sorted. -/
theorem pairwise_endAdjacency (g : Grammar) (ns : NullableSet) :
    (g.endAdjacency ns).Pairwise (· < ·) :=
  Pair.pairwise_sort (nodup_eraseDups _)

/-- **Seeds.**  For every set of nullable nonterminals: `A BDW X` holds if a rule of `A` that is not
written `ϵ` has `X` behind nullable symbols only; `X FDB Y` if some rule has `Y` behind the
nonterminal `X` with nullable symbols only between them; and `X DEO A` if a rule of `A` that is not
written `ϵ` has `X` before nullable symbols only, or if `X` is `A` itself, nullable and with such a
rule, or, on demand, if the pair is in the end adjacency.  The end adjacency has the nullable
symbols that stand right before a terminal in some rule.  The pairs of `DEO` and of the end
adjacency increase. -/
theorem seeds_iff_written (g : Grammar) (ns : NullableSet) (adjacentEnds : Bool) :
    (∀ A X, (g.beginsDirectlyWith ns).contains A X = true ↔
        ∃ r ∈ g.rules, r.rhs ≠ Production.epsilon ∧ r.lhs = A ∧
          ∃ u v, r.rhs = u ++ X :: v ∧ ns.Vanishes u) ∧
      (∀ X Y, (g.followedDirectlyBy ns).contains X Y = true ↔
        X.isNonterminal ∧
          ∃ r ∈ g.rules, ∃ u w v, r.rhs = u ++ X :: (w ++ Y :: v) ∧ ns.Vanishes w) ∧
      (∀ X A, (g.directlyEnds ns adjacentEnds).contains X A = true ↔
        (∃ r ∈ g.rules, r.rhs ≠ Production.epsilon ∧ r.lhs = A ∧
            ∃ u v, r.rhs = u ++ X :: v ∧ ns.Vanishes v) ∨
          (X = A ∧ ns.contains A = true ∧
            ∃ r ∈ g.rules, r.rhs ≠ Production.epsilon ∧ r.lhs = A) ∨
          (adjacentEnds = true ∧ ⟨X, A⟩ ∈ g.endAdjacency ns)) ∧
      (∀ N t, ⟨N, t⟩ ∈ g.endAdjacency ns ↔
        ns.contains N = true ∧ t.isTerminal ∧
          ∃ r ∈ g.rules, ∃ u v, r.rhs = u ++ N :: t :: v) ∧
      (g.directlyEnds ns adjacentEnds).pairs.Pairwise (· < ·) ∧
      (g.endAdjacency ns).Pairwise (· < ·) := by
  refine ⟨fun A X => ?_, fun X Y => ?_, fun X A => ?_, fun _ _ => mem_endAdjacency_iff_next,
    Relation.pairwise_pairs_ofPairs_sort _ _, pairwise_endAdjacency g ns⟩
  · rw [Relation.contains_iff]
    exact relates_beginsDirectlyWith.trans beginsDirectly_iff_written
  · rw [Relation.contains_iff, followedDirectlyBy, Relation.mem_ofPairs, List.mem_flatMap]
    simp only [NullableSet.mem_adjacent_iff_between]
    refine ⟨?_, ?_⟩
    · rintro ⟨r, hr, hX, hplace⟩
      exact ⟨hX, r, hr, hplace⟩
    · rintro ⟨hX, r, hr, hplace⟩
      exact ⟨r, hr, hX, hplace⟩
  · rw [Relation.contains_iff]
    refine relates_directlyEnds.trans (or_congr endsDirectly_iff_written (or_congr_left ?_))
    simp only [mem_writtenRules, and_assoc]

end Grammar

end Lookahead
