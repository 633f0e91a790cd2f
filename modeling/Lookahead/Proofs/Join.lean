import Lookahead.Proofs.Origins

/-!
# Joins of any number of relations

The join of one or more relations holds what they link, one after the other (`mem_compose`).  So it
makes no difference if some of them that stand side by side are joined first: their join links what
they link together (`mem_compose_group`).

All pairs of a join are direct.  A pair with the absent symbol has no place in the matrix of
origins, so putting it into a relation leaves the origins of all other pairs alone, and the relation
without such pairs (`written`) is coherent.

**Joins** (`compose_join`).  The join of relations holds what they link, each pair once and direct,
and neither joining the first relations before the others nor joining the last ones before the
others changes its pairs.
-/

namespace Lookahead.Relation

variable {r : Relation} {rs us ms vs : List Relation} {p : Pair} {ps : List Pair} {o : Origin}
  {tag t : RelationTag} {a b z : Symbol}

/-! ### Joining in groups -/

/-- A join links what the relations joined in it link together. -/
theorem linked_compose (hms : ms ≠ []) : Linked [compose t ms] a z ↔ Linked ms a z := by
  simp [Linked, Relates, mem_compose, hms]

theorem linked_group (hms : ms ≠ []) :
    Linked (us ++ compose t ms :: vs) a z ↔ Linked (us ++ ms ++ vs) a z := by
  rw [← List.singleton_append, ← List.append_assoc]
  simp only [linked_append, linked_compose hms]

/-- **Joining in groups.**  Relations that stand side by side may be joined first. -/
theorem mem_compose_group (hms : ms ≠ []) :
    p ∈ compose tag (us ++ compose t ms :: vs) ↔ p ∈ compose tag (us ++ ms ++ vs) := by
  obtain ⟨a, z⟩ := p
  rw [mem_compose, mem_compose, linked_group hms]
  simp [hms]

/-! ### Pairs without a place -/

/-- The relation without its pairs of which a symbol is absent. -/
def written (r : Relation) : Relation := { r with pairs := r.pairs.filter fun p => p.Writable }

theorem mem_written : p ∈ r.written ↔ p ∈ r ∧ p.Writable := by
  change p ∈ r.pairs.filter _ ↔ _
  rw [List.mem_filter, decide_eq_true_eq]
  rfl

/-- No place of the matrix belongs to a pair of which a symbol is absent. -/
theorem not_covers_of_not_writable (m : TagMatrix) (hp : ¬ p.Writable) :
    ¬ m.covers p.left.index p.right.index = true := by
  rw [TagMatrix.covers_iff]
  rintro ⟨hleft, hright, -⟩
  refine hp ⟨Symbol.writable_iff.mpr fun h => ?_, Symbol.writable_iff.mpr fun h => ?_⟩
  · rw [h] at hleft
    exact absurd hleft (by decide)
  · rw [h] at hright
    exact absurd hright (by decide)

theorem written_insert (r : Relation) (p : Pair) (o : Origin) :
    (r.insert p o).written = if p.Writable then r.written.insert p o else r.written := by
  by_cases hr : p ∈ r
  · -- a pair that is there already is passed over on both sides
    rw [insert_of_mem hr]
    split
    · rename_i hp
      rw [insert_of_mem (mem_written.mpr ⟨hr, hp⟩)]
    · rfl
  · have hnew : ¬ r.pairs.contains p = true := fun h => hr (List.contains_iff_mem.mp h)
    split
    · rename_i hp
      have hnew' : ¬ r.written.pairs.contains p = true :=
        fun h => hr (mem_written.mp (List.contains_iff_mem.mp h)).1
      rw [insert, if_neg hnew, insert, if_neg hnew']
      simp [written, hp]
    · rename_i hp
      rw [insert, if_neg hnew, TagMatrix.setIfNull,
        TagMatrix.put_of_not_covers (not_covers_of_not_writable _ hp)]
      simp [written, hp]

theorem written_insertAll (r : Relation) (ps : List Pair) (o : Origin) :
    (r.insertAll ps o).written = r.written.insertAll (ps.filter fun p => p.Writable) o := by
  induction ps generalizing r with
  | nil => rfl
  | cons p rest ih =>
      have hstep : r.insertAll (p :: rest) o = (r.insert p o).insertAll rest o := rfl
      rw [hstep, ih, written_insert, List.filter_cons]
      by_cases hp : p.Writable
      · simp only [hp, decide_true, if_true]
        rfl
      · simp only [hp, decide_false, if_false, Bool.false_eq_true]

/-- **Direct pairs.**  Of the pairs that a relation is made of, those of writable symbols are
direct, and the others have no origin. -/
theorem origin_ofPairs (tag : RelationTag) (ps : List Pair) (a b : Symbol) :
    (ofPairs tag ps).origin a b =
      if ⟨a, b⟩ ∈ ps ∧ Pair.Writable ⟨a, b⟩ then .direct else .unrelated := by
  have hwritten : (ofPairs tag ps).written = ofPairs tag (ps.filter fun p => p.Writable) :=
    written_insertAll (empty tag) ps .direct
  have horigin : (ofPairs tag ps).origin a b = (ofPairs tag ps).written.origin a b := rfl
  have hfilter : ∀ p ∈ ps.filter fun p => p.Writable, p.Writable :=
    fun p hp => of_decide_eq_true (List.mem_filter.mp hp).2
  rw [horigin, hwritten, ofPairs, (coherent_empty tag).origin_insertAll hfilter (by decide),
    if_neg (not_mem_empty tag _)]
  simp only [List.mem_filter, decide_eq_true_eq]

/-! ### The join -/

/-- A join is made of its pairs. -/
theorem exists_compose_eq_ofPairs (tag : RelationTag) (rs : List Relation) :
    ∃ ps, compose tag rs = ofPairs tag ps := by
  cases rs with
  | nil => exact ⟨[], rfl⟩
  | cons r rest => exact ⟨chain r.pairs rest, rfl⟩

theorem distinct_compose (tag : RelationTag) (rs : List Relation) : (compose tag rs).Distinct := by
  obtain ⟨ps, hps⟩ := exists_compose_eq_ofPairs tag rs
  rw [hps]
  exact distinct_ofPairs tag ps

theorem origin_compose (tag : RelationTag) (rs : List Relation) (a z : Symbol) :
    (compose tag rs).origin a z =
      if ⟨a, z⟩ ∈ compose tag rs ∧ Pair.Writable ⟨a, z⟩ then .direct else .unrelated := by
  obtain ⟨ps, hps⟩ := exists_compose_eq_ofPairs tag rs
  rw [hps, origin_ofPairs]
  simp only [mem_ofPairs]

/-- **Joins.**  The join of relations holds what one or more of them link, each pair once; its pairs
of writable symbols are direct; and its pairs are the same if the first `k` relations are joined
before the others, or the others before the join with the first `k`. -/
theorem compose_join (tag : RelationTag) (rs : List Relation) :
    (∀ a z, (compose tag rs).contains a z = true ↔ rs ≠ [] ∧ Linked rs a z) ∧
      (compose tag rs).pairs.Nodup ∧
      (∀ a z, (compose tag rs).origin a z =
        if ⟨a, z⟩ ∈ compose tag rs ∧ Pair.Writable ⟨a, z⟩ then .direct else .unrelated) ∧
      ∀ (t : RelationTag) (k : Nat), 1 ≤ k → k < rs.length → ∀ p,
        (p ∈ compose tag (compose t (rs.take k) :: rs.drop k) ↔ p ∈ compose tag rs) ∧
          (p ∈ compose tag (rs.take k ++ [compose t (rs.drop k)]) ↔ p ∈ compose tag rs) := by
  refine ⟨fun a z => contains_iff.trans mem_compose, distinct_compose tag rs,
    origin_compose tag rs, fun t k hpos hlt p => ⟨?_, ?_⟩⟩
  · have hfirst : rs.take k ≠ [] := by
      rw [ne_eq, List.take_eq_nil_iff]
      rintro (rfl | rfl)
      · exact absurd hpos (by decide)
      · exact absurd hlt (Nat.not_lt_zero k)
    calc p ∈ compose tag ([] ++ compose t (rs.take k) :: rs.drop k)
        ↔ p ∈ compose tag ([] ++ rs.take k ++ rs.drop k) := mem_compose_group hfirst
      _ ↔ p ∈ compose tag rs := by rw [List.nil_append, List.take_append_drop]
  · have hlast : rs.drop k ≠ [] := by
      rw [ne_eq, List.drop_eq_nil_iff]
      exact Nat.not_le.mpr hlt
    calc p ∈ compose tag (rs.take k ++ [compose t (rs.drop k)])
        ↔ p ∈ compose tag (rs.take k ++ rs.drop k ++ []) := mem_compose_group hlast
      _ ↔ p ∈ compose tag rs := by rw [List.append_nil, List.take_append_drop]

/-- Two ways lead from `S` to `C`, and one from there to `c`. -/
def twoWays : List Relation :=
  [ofPairs .ends [⟨.ofChar 'S', .ofChar 'A'⟩, ⟨.ofChar 'S', .ofChar 'B'⟩],
    ofPairs .followedDirectlyBy [⟨.ofChar 'A', .ofChar 'C'⟩, ⟨.ofChar 'B', .ofChar 'C'⟩],
    ofPairs .beginsWith [⟨.ofChar 'C', .ofChar 'c'⟩]]

/-- Both ways give the same pair, and so they do if the relations are joined in groups. -/
theorem twoWays_joined_in_groups :
    (1 ≤ 2 ∧ 2 < twoWays.length) ∧
      (⟨.ofChar 'S', .ofChar 'c'⟩ : Pair) ∈
        compose .followedBy (compose .ends (twoWays.take 2) :: twoWays.drop 2) ∧
      (⟨.ofChar 'S', .ofChar 'c'⟩ : Pair) ∈
        compose .followedBy (twoWays.take 2 ++ [compose .ends (twoWays.drop 2)]) := by
  have hlt : 2 < twoWays.length := by decide
  have hflat : (⟨.ofChar 'S', .ofChar 'c'⟩ : Pair) ∈ compose .followedBy twoWays := by
    decide +kernel
  obtain ⟨hfirst, hlast⟩ :=
    (compose_join .followedBy twoWays).2.2.2 .ends 2 (by decide) hlt ⟨.ofChar 'S', .ofChar 'c'⟩
  exact ⟨⟨by decide, hlt⟩, hfirst.mpr hflat, hlast.mpr hflat⟩

end Lookahead.Relation
