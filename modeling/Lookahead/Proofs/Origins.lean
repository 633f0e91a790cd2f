import Lookahead.Proofs.Closure
import Lookahead.Proofs.PairOrder
import Lookahead.Proofs.TagMatrix

/-!
# Pairs and their origins

A relation holds its pairs twice: in a list, in the order in which they came, and in a matrix that
has the origin of each pair at the indices of its symbols.  The two are written together and are
never compared, so that they agree is an invariant (`Coherent`): the pairs of the list and the cells
of the matrix correspond one to one, and no cell is tagged with the null value.  The absent symbol
has no index, so all this is about symbols that some character writes.

In a coherent relation a pair has an origin exactly if it is there (`Coherent.mem_iff_origin`), and
the pairs of one origin, read off the matrix, are those of the sorted list that have it
(`Coherent.pairsOf_eq`).  What is inserted later leaves the origin of what is there alone
(`Coherent.origin_insertAll`).

**Coherence** (`Built.coherent`).  Every relation that is built out of pairs of writable symbols by
adding, closing and joining is coherent.
-/

namespace Lookahead

namespace Symbol

/-- Some character writes the symbol. -/
def Writable (X : Symbol) : Prop := ∃ c, ofChar? c = some X

theorem writable_iff {X : Symbol} : X.Writable ↔ X ≠ .absent := by
  refine ⟨?_, fun h => ⟨X.char, ?_⟩⟩
  · rintro ⟨c, hc⟩ rfl
    unfold ofChar? at hc
    split at hc
    · cases hc
    · split at hc
      · cases hc
      · cases hupper : letterFrom 'A' c with
        | some letter => simp [hupper] at hc
        | none => simp [hupper] at hc
  · -- a symbol is read back from its character
    have hread : (ofChar? X.char).getD .absent = X := ofChar_char X
    cases hc : ofChar? X.char with
    | none => exact absurd (by simpa [hc] using hread.symm) h
    | some Y => simpa [hc] using hread

instance (X : Symbol) : Decidable X.Writable := decidable_of_iff (X ≠ .absent) writable_iff.symm

end Symbol

theorem Origin.code_injective {o o' : Origin} (h : o.code = o'.code) : o = o' := by
  rw [← ofCode_code o, h, ofCode_code]

namespace Pair

variable {p q : Pair} {o o' : Origin}

/-- Both symbols of the pair are writable. -/
def Writable (p : Pair) : Prop := p.left.Writable ∧ p.right.Writable

instance (p : Pair) : Decidable p.Writable := inferInstanceAs (Decidable (_ ∧ _))

/-- The cell of a pair with an origin. -/
def cell (p : Pair) (o : Origin) : Cell := ⟨p.left.index, p.right.index, o.code⟩

theorem cell_inj (h : p.cell o = q.cell o') : p = q ∧ o = o' := by
  obtain ⟨hleft, hright, hcode⟩ := Cell.mk.inj h
  exact ⟨eq_of_index_eq hleft hright, Origin.code_injective hcode⟩

/-- The cells of different pairs are at different places. -/
theorem isAt_cell : (p.cell o).isAt q.left.index q.right.index = true ↔ p = q := by
  rw [Cell.isAt_iff]
  exact ⟨fun ⟨hleft, hright⟩ => eq_of_index_eq hleft hright, fun h => h ▸ ⟨rfl, rfl⟩⟩

end Pair

namespace Relation

variable {r seed : Relation} {p : Pair} {ps : List Pair} {o : Origin} {a b : Symbol}

theorem insert_of_mem (hp : p ∈ r) (o : Origin) : r.insert p o = r :=
  if_pos (List.contains_iff_mem.mpr hp)

/-! ### The invariant -/

/-- The matrix of origins has a cell for each pair of the list, and no other cells. -/
structure Coherent (r : Relation) : Prop where
  distinct : r.Distinct
  writable : ∀ p ∈ r.pairs, p.Writable
  rows : r.origins.rows = Symbol.count
  cols : r.origins.cols = Symbol.count
  null : r.origins.null = Origin.unrelated.code
  ordered : r.origins.Ordered
  cell_of_pair : ∀ p ∈ r.pairs, ∃ o, o ≠ .unrelated ∧ p.cell o ∈ r.origins.cells
  pair_of_cell : ∀ c ∈ r.origins.cells, ∃ p ∈ r.pairs, ∃ o, o ≠ .unrelated ∧ c = p.cell o

theorem coherent_empty (tag : RelationTag) : (empty tag).Coherent where
  distinct := distinct_empty tag
  writable _ h := absurd h List.not_mem_nil
  rows := rfl
  cols := rfl
  null := rfl
  ordered := TagMatrix.ordered_empty _ _ _
  cell_of_pair _ h := absurd h List.not_mem_nil
  pair_of_cell _ h := absurd h List.not_mem_nil

namespace Coherent

/-- The place of a pair that is not there is open. -/
theorem not_isAt (h : r.Coherent) (hp : p ∉ r) :
    ∀ c ∈ r.origins.cells, ¬ c.isAt p.left.index p.right.index = true := by
  intro c hc hat
  obtain ⟨q, hq, o, -, rfl⟩ := h.pair_of_cell c hc
  exact hp (Pair.isAt_cell.mp hat ▸ hq)

theorem covers (h : r.Coherent) (hp : p.Writable) :
    r.origins.covers p.left.index p.right.index = true := by
  have hleft := Symbol.index_range (Symbol.writable_iff.mp hp.1)
  have hright := Symbol.index_range (Symbol.writable_iff.mp hp.2)
  rw [TagMatrix.covers_iff, h.rows, h.cols]
  exact ⟨hleft.1, hright.1, hleft.2, hright.2⟩

/-- A new pair goes to the end of the list, and its cell into its place of the matrix. -/
theorem insert_of_notMem (h : r.Coherent) (hw : p.Writable) (hp : p ∉ r) (o : Origin) :
    r.insert p o =
      { r with
        pairs := r.pairs ++ [p]
        origins := { r.origins with
          cells := TagMatrix.insertOrdered (p.cell o) r.origins.cells } } := by
  have hnew : ¬ r.pairs.contains p = true := fun hmem => hp (List.contains_iff_mem.mp hmem)
  have hnone : r.origins.cell? p.left.index p.right.index = none :=
    h.ordered.cell?_eq_none.mpr (h.not_isAt hp)
  rw [insert, if_neg hnew, h.ordered.setIfNull_of_open (h.covers hw) hnone]
  rfl

/-- **Inserting a pair** keeps list and matrix in agreement. -/
theorem insert (h : r.Coherent) (hw : p.Writable) (ho : o ≠ .unrelated) :
    (r.insert p o).Coherent := by
  by_cases hp : p ∈ r
  · rwa [insert_of_mem hp]
  have hcells : ∀ c, c ∈ TagMatrix.insertOrdered (p.cell o) r.origins.cells ↔
      c = p.cell o ∨ c ∈ r.origins.cells :=
    fun c => TagMatrix.mem_insertOrdered (h.not_isAt hp)
  have hdistinct : (r.insert p o).Distinct := (grows_insert p o).keeps r h.distinct
  rw [h.insert_of_notMem hw hp] at hdistinct ⊢
  refine ⟨hdistinct, ?_, h.rows, h.cols, h.null, TagMatrix.pairwise_insertOrdered h.ordered,
    ?_, ?_⟩
  · intro q hq
    rcases List.mem_append.mp hq with hq | hq
    · exact h.writable q hq
    · exact List.mem_singleton.mp hq ▸ hw
  · intro q hq
    rcases List.mem_append.mp hq with hq | hq
    · obtain ⟨o', ho', hcell⟩ := h.cell_of_pair q hq
      exact ⟨o', ho', (hcells _).mpr (.inr hcell)⟩
    · exact ⟨o, ho, (hcells _).mpr (.inl (List.mem_singleton.mp hq ▸ rfl))⟩
  · intro c hc
    rcases (hcells c).mp hc with rfl | hc
    · exact ⟨p, by simp, o, ho, rfl⟩
    · obtain ⟨q, hq, o', ho', rfl⟩ := h.pair_of_cell c hc
      exact ⟨q, List.mem_append_left _ hq, o', ho', rfl⟩

theorem insertAll (h : r.Coherent) (hps : ∀ p ∈ ps, p.Writable) (ho : o ≠ .unrelated) :
    (r.insertAll ps o).Coherent :=
  List.foldlRecOn ps (fun (s : Relation) p => s.insert p o) h
    fun _ hs p hp => hs.insert (hps p hp) ho

/-! ### What has an origin -/

theorem origin_eq_iff (h : r.Coherent) (ho : o ≠ .unrelated) :
    r.origin a b = o ↔ Pair.cell ⟨a, b⟩ o ∈ r.origins.cells := by
  unfold origin TagMatrix.value
  refine ⟨fun horigin => ?_, fun hcell => ?_⟩
  · cases hfound : r.origins.cell? a.index b.index with
    | none =>
        rw [hfound, h.null] at horigin
        exact absurd horigin.symm ho
    | some c =>
        -- the cell that was found is that of a pair, and it is at the place of this one
        rw [hfound] at horigin
        obtain ⟨hc, hrow, hcol⟩ := TagMatrix.cell?_eq_some hfound
        obtain ⟨q, -, o', -, rfl⟩ := h.pair_of_cell c hc
        obtain rfl : q = ⟨a, b⟩ := Pair.eq_of_index_eq hrow hcol
        obtain rfl : o' = o := by simpa [Pair.cell] using horigin
        exact hc
  · have hfound : r.origins.cell? a.index b.index = some (Pair.cell ⟨a, b⟩ o) :=
      h.ordered.cell?_of_mem hcell
    rw [hfound]
    exact Origin.ofCode_code o

/-- **A pair has an origin exactly if it is there.** -/
theorem mem_iff_origin (h : r.Coherent) : ⟨a, b⟩ ∈ r ↔ r.origin a b ≠ .unrelated := by
  refine ⟨fun hmem => ?_, fun hne => ?_⟩
  · obtain ⟨o, ho, hcell⟩ := h.cell_of_pair _ hmem
    rwa [(h.origin_eq_iff ho).mpr hcell]
  · obtain ⟨q, hq, o, -, hcell⟩ := h.pair_of_cell _ ((h.origin_eq_iff hne).mp rfl)
    exact (Pair.cell_inj hcell).1 ▸ hq

theorem origin_of_notMem (h : r.Coherent) (hp : ⟨a, b⟩ ∉ r) : r.origin a b = .unrelated := by
  by_contra hne
  exact hp (h.mem_iff_origin.mpr hne)

/-! ### The pairs of an origin -/

theorem mem_pairsOf (h : r.Coherent) : p ∈ r.pairsOf o ↔ p.cell o ∈ r.origins.cells := by
  simp only [pairsOf, List.mem_map, List.mem_filter, beq_iff_eq]
  refine ⟨?_, fun hcell => ⟨p.cell o, ⟨hcell, rfl⟩, by simp [Pair.cell]⟩⟩
  rintro ⟨c, ⟨hc, htag⟩, rfl⟩
  obtain ⟨q, -, o', -, rfl⟩ := h.pair_of_cell c hc
  obtain rfl : o' = o := Origin.code_injective htag
  simpa [Pair.cell] using hc

/-- The order of the cells is the order of the pairs. -/
theorem pairwise_pairsOf (h : r.Coherent) (o : Origin) : (r.pairsOf o).Pairwise (· < ·) := by
  rw [pairsOf, List.pairwise_map]
  refine (h.ordered.filter _).imp_of_mem fun {c d} hc hd hbefore => ?_
  obtain ⟨p, -, o₁, -, rfl⟩ := h.pair_of_cell c (List.mem_filter.mp hc).1
  obtain ⟨q, -, o₂, -, rfl⟩ := h.pair_of_cell d (List.mem_filter.mp hd).1
  simpa [Pair.cell, Pair.lt_iff_index_lt, Cell.isBefore_iff] using hbefore

/-- **The pairs of an origin** are those of the sorted pairs that have it. -/
theorem pairsOf_eq (h : r.Coherent) (ho : o ≠ .unrelated) :
    r.pairsOf o = r.sorted.filter fun p => r.origin p.left p.right = o := by
  refine (h.pairwise_pairsOf o).eq_of_mem_iff ((Pair.pairwise_sort h.distinct).filter _) fun p => ?_
  rw [h.mem_pairsOf, ← h.origin_eq_iff ho, List.mem_filter, decide_eq_true_eq, sorted,
    Pair.mem_sort]
  refine (and_iff_right_of_imp fun horigin => ?_).symm
  exact h.mem_iff_origin.mpr (horigin ▸ ho)

end Coherent

/-- Each of the pairs has one of three origins. -/
theorem filter_origin_perm {f : Pair → Origin} (h : ∀ p ∈ ps, f p ≠ .unrelated) :
    (ps.filter (f · = .direct) ++ ps.filter (f · = .transitive) ++
      ps.filter (f · = .reflexive)).Perm ps := by
  induction ps with
  | nil => exact List.Perm.nil
  | cons p rest ih =>
      obtain ⟨hp, hrest⟩ := List.forall_mem_cons.mp h
      have hperm := (ih hrest).cons p
      cases horigin : f p with
      | unrelated => exact absurd horigin hp
      | direct => simpa [horigin] using hperm
      | transitive =>
          simp only [List.filter_cons, horigin, reduceCtorEq, decide_true, decide_false, if_true,
            Bool.false_eq_true, if_false]
          exact (List.perm_middle.append_right _).trans hperm
      | reflexive =>
          simp only [List.filter_cons, horigin, reduceCtorEq, decide_true, decide_false, if_true,
            Bool.false_eq_true, if_false]
          exact List.perm_middle.trans hperm

/-- The pairs of the three origins are all pairs of the relation. -/
theorem Coherent.perm_pairsOf (h : r.Coherent) :
    (r.pairsOf .direct ++ r.pairsOf .transitive ++ r.pairsOf .reflexive).Perm r.pairs := by
  rw [h.pairsOf_eq (by decide), h.pairsOf_eq (by decide), h.pairsOf_eq (by decide)]
  refine (filter_origin_perm fun p hp => ?_).trans (Pair.sort_perm r.pairs)
  exact h.mem_iff_origin.mp (Pair.mem_sort.mp hp)

/-! ### Inserting, seen by origins -/

namespace Coherent

/-- A new pair has the origin it came with, and no other origin changes. -/
theorem origin_insert (h : r.Coherent) (hw : p.Writable) (hp : p ∉ r) :
    (r.insert p o).origin a b = if p = ⟨a, b⟩ then o else r.origin a b := by
  rw [h.insert_of_notMem hw hp, origin, TagMatrix.value, h.ordered.cell?_insertOrdered]
  by_cases hab : p = ⟨a, b⟩
  · subst hab
    rw [if_pos (Pair.isAt_cell.mpr rfl), if_pos rfl]
    exact Origin.ofCode_code o
  · rw [if_neg hab, if_neg fun hat => hab (Pair.isAt_cell.mp hat)]
    rfl

/-- **First come, first marked.**  What is there keeps its origin, and what is new has the origin it
came with. -/
theorem origin_insertAll (h : r.Coherent) (hps : ∀ p ∈ ps, p.Writable) (ho : o ≠ .unrelated) :
    (r.insertAll ps o).origin a b =
      if ⟨a, b⟩ ∈ r then r.origin a b else if ⟨a, b⟩ ∈ ps then o else .unrelated := by
  induction ps generalizing r with
  | nil =>
      by_cases hr : ⟨a, b⟩ ∈ r
      · rw [if_pos hr]
        rfl
      · rw [if_neg hr, if_neg List.not_mem_nil]
        exact h.origin_of_notMem hr
  | cons q rest ih =>
      obtain ⟨hq, hrest⟩ := List.forall_mem_cons.mp hps
      have hstep : (r.insertAll (q :: rest) o) = (r.insert q o).insertAll rest o := rfl
      rw [hstep, ih (h.insert hq ho) hrest]
      by_cases hqr : q ∈ r
      · -- a pair that is there already is passed over
        rw [insert_of_mem hqr]
        by_cases hr : ⟨a, b⟩ ∈ r
        · rw [if_pos hr, if_pos hr]
        · have hne : (⟨a, b⟩ : Pair) ≠ q := fun e => hr (e ▸ hqr)
          simp only [if_neg hr, List.mem_cons, hne, false_or]
      · rw [h.origin_insert hq hqr]
        by_cases hab : q = ⟨a, b⟩
        · subst hab
          simp [hqr]
        · simp [hab, Ne.symm hab]

end Coherent

/-! ### Everything that can be built -/

/-- The relations that can be built out of writable symbols: the empty one, and from others by
adding pairs, by closing and by joining. -/
inductive Built : Relation → Prop where
  | empty (tag : RelationTag) : Built (empty tag)
  | add {r : Relation} {ps : List Pair} (h : Built r) (hps : ∀ p ∈ ps, p.Writable) :
      Built (r.add ps).2
  | close {seed : Relation} (tag : RelationTag) {univ : List Symbol} (h : Built seed)
      (huniv : ∀ x ∈ univ, x.Writable) : Built (seed.close tag univ)
  | compose (tag : RelationTag) {rs : List Relation} (h : ∀ r ∈ rs, Built r) :
      Built (compose tag rs)

theorem built_ofPairs (tag : RelationTag) (hps : ∀ p ∈ ps, p.Writable) : (ofPairs tag ps).Built :=
  .add (.empty tag) hps

theorem coherent_ofPairs (tag : RelationTag) (hps : ∀ p ∈ ps, p.Writable) :
    (ofPairs tag ps).Coherent :=
  (coherent_empty tag).insertAll hps (by decide)

/-- A joined pair has its symbols from the pairs that are joined. -/
theorem writable_of_mem_joined (hps : ∀ p ∈ ps, p.Writable) (hr : ∀ p ∈ r.pairs, p.Writable) :
    ∀ p ∈ joined ps r, p.Writable := by
  rintro ⟨a, c⟩ hp
  obtain ⟨b, hab, hbc⟩ := mem_joined.mp hp
  exact ⟨(hps _ hab).1, (hr _ hbc).2⟩

theorem writable_of_mem_chain {rs : List Relation} (hps : ∀ p ∈ ps, p.Writable)
    (hrs : ∀ r ∈ rs, ∀ p ∈ r.pairs, p.Writable) : ∀ p ∈ chain ps rs, p.Writable := by
  induction rs generalizing ps with
  | nil => exact hps
  | cons r rest ih =>
      obtain ⟨hr, hrest⟩ := List.forall_mem_cons.mp hrs
      refine ih (fun p hp => ?_) hrest
      exact writable_of_mem_joined hps hr p (List.mem_eraseDups.mp hp)

theorem Coherent.closePass (h : r.Coherent) : (closePass r).Coherent :=
  h.insertAll (writable_of_mem_joined h.writable h.writable) (by decide)

/-- The passes of a closure keep list and matrix in agreement. -/
theorem Coherent.closeTransitive (h : r.Coherent) : (closeTransitive r).Coherent :=
  saturate_induction (fun _ hs => hs.closePass) _ h

theorem writable_of_mem_diagonal {univ : List Symbol} (huniv : ∀ x ∈ univ, x.Writable) :
    ∀ p ∈ (univ.filter fun x => !x.isEpsilon).map (fun x => (⟨x, x⟩ : Pair)), p.Writable := by
  rintro ⟨a, b⟩ hp
  obtain ⟨rfl, ha, -⟩ := mem_diagonal.mp hp
  exact ⟨huniv a ha, huniv a ha⟩

/-- **Coherence.**  List and matrix agree in every relation that can be built. -/
theorem Built.coherent (h : r.Built) : r.Coherent := by
  induction h with
  | empty tag => exact coherent_empty tag
  | add _ hps ih => exact ih.insertAll hps (by decide)
  | close tag _ huniv ih =>
      have hreached := (coherent_ofPairs tag ih.writable).closeTransitive
      exact hreached.insertAll (writable_of_mem_diagonal huniv) (by decide)
  | @compose tag rs _ ih =>
      cases rs with
      | nil => exact coherent_empty tag
      | cons r rest =>
          obtain ⟨hr, hrest⟩ := List.forall_mem_cons.mp ih
          refine coherent_ofPairs tag (writable_of_mem_chain hr.writable fun s hs => ?_)
          exact (hrest s hs).writable

end Relation

end Lookahead
