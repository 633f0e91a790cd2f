import Mathlib.Data.List.Induction
import Mathlib.Data.Set.Card
import Lookahead.Proofs.TagMatrix

/-!
# What a matrix holds

A matrix is filled by writes that are asked for one after another.  Some have no effect: a place
outside the matrix is never written, and a write that is to be the first one at its place comes too
late if the place was written before.  `effective` lists the cells of those that have an effect, in
the order in which they were asked for.

The matrix keeps one cell for each place in this list, the last one (`Holds`).

**Reading what was written** (`holds_what_was_written`).  The cells stand in row-major order inside
the matrix, a place reads as the last tag that was written there, a first write is taken exactly at
a place of the matrix that was never written, and walks and counts see the written places.

A place that was written with the null value reads as one that was never written, yet it is kept.
So the null value marks the open places only as long as no place was last written with it
(`null_marks_open_iff`).
-/

namespace Lookahead.TagMatrix

/-! ### Writes and their effect -/

/-- A write that is asked for. -/
inductive Write where
  | set (i j : Int) (tag : Int8)
  /-- To be the first write at its place. -/
  | setIfNull (i j : Int) (tag : Int8)
deriving DecidableEq, Repr

namespace Write

/-- The cell that the write is to leave. -/
def cell : Write → Cell
  | .set i j tag | .setIfNull i j tag => ⟨i, j, tag⟩

/-- The write is made over an earlier one. -/
def overwrites : Write → Bool
  | .set .. => true
  | .setIfNull .. => false

end Write

/-- The matrix after a write. -/
def write (m : TagMatrix) : Write → TagMatrix
  | .set i j tag => m.set i j tag
  | .setIfNull i j tag => (m.setIfNull i j tag).2

/-- The matrix after some writes. -/
def run (m : TagMatrix) (ws : List Write) : TagMatrix := ws.foldl write m

/-- The place lies in a matrix of this size. -/
def InRange (rows cols i j : Int) : Prop := 0 ≤ i ∧ i < rows ∧ 0 ≤ j ∧ j < cols

instance (rows cols i j : Int) : Decidable (InRange rows cols i j) :=
  inferInstanceAs (Decidable (_ ∧ _))

/-- One of the cells is at the place. -/
def Written (log : List Cell) (i j : Int) : Prop := ∃ c ∈ log, c.row = i ∧ c.col = j

instance (log : List Cell) (i j : Int) : Decidable (Written log i j) :=
  inferInstanceAs (Decidable (∃ c ∈ log, _))

/-- The write has an effect behind those that left the cells. -/
def Write.TakesEffect (rows cols : Int) (log : List Cell) : Write → Prop
  | .set i j _ => InRange rows cols i j
  | .setIfNull i j _ => InRange rows cols i j ∧ ¬ Written log i j

instance (rows cols : Int) (log : List Cell) : (w : Write) → Decidable (w.TakesEffect rows cols log)
  | .set .. => inferInstanceAs (Decidable (InRange ..))
  | .setIfNull .. => inferInstanceAs (Decidable (_ ∧ _))

/-- The cells with one more write, if it has an effect. -/
def logged (rows cols : Int) (log : List Cell) (w : Write) : List Cell :=
  if w.TakesEffect rows cols log then log ++ [w.cell] else log

/-- The cells that the writes with an effect leave, in the order in which they are asked for. -/
def effective (rows cols : Int) (ws : List Write) : List Cell := ws.foldl (logged rows cols) []

/-- The last of the cells at a place. -/
def lastAt (log : List Cell) (i j : Int) : Option Cell := log.reverse.find? fun c => c.isAt i j

/-- The tag of the last of the cells at a place. -/
def lastTag (log : List Cell) (i j : Int) : Option Int8 := (lastAt log i j).map Cell.tag

variable {m : TagMatrix} {log : List Cell} {rows cols i j : Int} {null tag : Int8} {w : Write}

theorem lastAt_concat (log : List Cell) (c : Cell) (i j : Int) :
    lastAt (log ++ [c]) i j = if c.isAt i j then some c else lastAt log i j := by
  rw [lastAt, List.reverse_concat, List.find?_cons]
  cases c.isAt i j <;> rfl

theorem lastAt_eq_none : lastAt log i j = none ↔ ¬ Written log i j := by
  simp [lastAt, Written, Cell.isAt_iff]

theorem write_eq_put (m : TagMatrix) (w : Write) :
    m.write w = (m.put w.cell.row w.cell.col w.cell.tag w.overwrites).2 := by
  cases w <;> rfl

theorem covers_iff_inRange : m.covers i j = true ↔ InRange m.rows m.cols i j := by
  rw [covers_iff, InRange]
  omega

theorem Write.takesEffect_iff : w.TakesEffect rows cols log ↔
    InRange rows cols w.cell.row w.cell.col ∧
      (w.overwrites = true ∨ lastAt log w.cell.row w.cell.col = none) := by
  cases w <;> simp [TakesEffect, overwrites, cell, lastAt_eq_none]

/-! ### One write -/

/-- The matrix keeps the last of the cells at each place, and no other cells. -/
structure Holds (m : TagMatrix) (log : List Cell) : Prop where
  ordered : m.Ordered
  inRange : ∀ c ∈ m.cells, InRange m.rows m.cols c.row c.col
  cell? : ∀ i j, m.cell? i j = lastAt log i j

theorem holds_empty (rows cols : Int) (null : Int8) : (empty rows cols null).Holds [] where
  ordered := ordered_empty rows cols null
  inRange _ h := absurd h List.not_mem_nil
  cell? i j := (ordered_empty rows cols null).cell?_eq_find? i j

/-- A write without effect leaves the matrix as it is. -/
theorem Holds.put_of_not_takesEffect (h : m.Holds log) (hw : ¬ w.TakesEffect m.rows m.cols log) :
    m.put w.cell.row w.cell.col w.cell.tag w.overwrites = (false, m) := by
  rw [Write.takesEffect_iff, ← covers_iff_inRange, ← h.cell?] at hw
  by_cases hcovers : m.covers w.cell.row w.cell.col = true
  · obtain ⟨hkeep, hwritten⟩ := not_or.mp fun hfree => hw ⟨hcovers, hfree⟩
    rw [put, if_pos hcovers, if_pos (Option.isSome_iff_ne_none.mpr hwritten), if_neg hkeep]
  · exact put_of_not_covers hcovers _ _

/-- A write with an effect puts its cell in order. -/
theorem Holds.put_of_takesEffect (h : m.Holds log) (hw : w.TakesEffect m.rows m.cols log) :
    m.put w.cell.row w.cell.col w.cell.tag w.overwrites =
      (true, { m with cells := insertOrdered w.cell m.cells }) := by
  rw [Write.takesEffect_iff, ← covers_iff_inRange, ← h.cell?] at hw
  exact h.ordered.put_eq hw.1 hw.2

theorem Holds.dimensions_write (h : m.Holds log) (w : Write) :
    (m.write w).rows = m.rows ∧ (m.write w).cols = m.cols ∧ (m.write w).null = m.null := by
  rw [write_eq_put]
  by_cases hw : w.TakesEffect m.rows m.cols log
  · rw [h.put_of_takesEffect hw]
    exact ⟨rfl, rfl, rfl⟩
  · rw [h.put_of_not_takesEffect hw]
    exact ⟨rfl, rfl, rfl⟩

/-- **One more write.** -/
theorem Holds.write (h : m.Holds log) (w : Write) :
    (m.write w).Holds (logged m.rows m.cols log w) := by
  rw [write_eq_put, logged]
  by_cases hw : w.TakesEffect m.rows m.cols log
  · rw [h.put_of_takesEffect hw, if_pos hw]
    refine ⟨pairwise_insertOrdered h.ordered, fun c hc => ?_, fun i j => ?_⟩
    · rcases mem_of_mem_insertOrdered hc with rfl | hc
      · exact (Write.takesEffect_iff.mp hw).1
      · exact h.inRange c hc
    · rw [h.ordered.cell?_insertOrdered, lastAt_concat, h.cell?]
  · rw [h.put_of_not_takesEffect hw, if_neg hw]
    exact h

/-! ### Any number of writes -/

theorem run_concat (m : TagMatrix) (ws : List Write) (w : Write) :
    m.run (ws ++ [w]) = (m.run ws).write w := List.foldl_concat ..

theorem effective_concat (rows cols : Int) (ws : List Write) (w : Write) :
    effective rows cols (ws ++ [w]) = logged rows cols (effective rows cols ws) w :=
  List.foldl_concat ..

/-- **Any number of writes.**  The matrix holds what the writes with an effect left, and its size
and null value stay as they were made. -/
theorem holds_run (rows cols : Int) (null : Int8) (ws : List Write) :
    ((empty rows cols null).run ws).Holds (effective rows cols ws) ∧
      ((empty rows cols null).run ws).rows = rows ∧ ((empty rows cols null).run ws).cols = cols ∧
      ((empty rows cols null).run ws).null = null := by
  induction ws using List.reverseRecOn with
  | nil => exact ⟨holds_empty rows cols null, rfl, rfl, rfl⟩
  | append_singleton ws w ih =>
      obtain ⟨h, hrows, hcols, hnull⟩ := ih
      obtain ⟨hrows', hcols', hnull'⟩ := h.dimensions_write w
      have hnext := h.write w
      rw [hrows, hcols] at hnext
      rw [run_concat, effective_concat]
      exact ⟨hnext, hrows'.trans hrows, hcols'.trans hcols, hnull'.trans hnull⟩

/-! ### Reading -/

namespace Holds

theorem value (h : m.Holds log) (i j : Int) : m.value i j = (lastTag log i j).getD m.null := by
  rw [TagMatrix.value, h.cell?, lastTag]
  cases lastAt log i j <;> rfl

/-- A place that was never written reads as null. -/
theorem value_of_not_written (h : m.Holds log) (hopen : ¬ Written log i j) :
    m.value i j = m.null := by
  rw [h.value, lastTag, lastAt_eq_none.mpr hopen]
  rfl

theorem setIfNull_eq_true (h : m.Holds log) :
    (m.setIfNull i j tag).1 = true ↔ InRange m.rows m.cols i j ∧ ¬ Written log i j := by
  change (m.put i j tag false).1 = true ↔
    (Write.setIfNull i j tag).TakesEffect m.rows m.cols log
  by_cases hw : (Write.setIfNull i j tag).TakesEffect m.rows m.cols log
  · exact iff_of_true (congrArg Prod.fst (h.put_of_takesEffect hw)) hw
  · refine iff_of_false (fun htrue => ?_) hw
    have hfalse : (m.put i j tag false).1 = false :=
      congrArg Prod.fst (h.put_of_not_takesEffect hw)
    exact Bool.false_ne_true (hfalse.symm.trans htrue)

theorem inRange_of_written (h : m.Holds log) (hwritten : Written log i j) :
    InRange m.rows m.cols i j := by
  cases hlast : lastAt log i j with
  | none => exact absurd hwritten (lastAt_eq_none.mp hlast)
  | some c =>
      obtain ⟨hc, rfl, rfl⟩ := cell?_eq_some ((h.cell? i j).trans hlast)
      exact h.inRange c hc

theorem write_of_not_takesEffect (h : m.Holds log) (hw : ¬ w.TakesEffect m.rows m.cols log) :
    m.write w = m := by
  rw [write_eq_put, h.put_of_not_takesEffect hw]

theorem pairwise_each (h : m.Holds log) :
    m.each.Pairwise fun a b => a.1 < b.1 ∨ a.1 = b.1 ∧ a.2.1 < b.2.1 :=
  List.pairwise_map.mpr (h.ordered.imp Cell.isBefore_iff.mp)

theorem mem_each (h : m.Holds log) : (i, j, tag) ∈ m.each ↔ lastTag log i j = some tag := by
  rw [lastTag, ← h.cell?, each, List.mem_map, Option.map_eq_some_iff]
  refine ⟨?_, ?_⟩
  · rintro ⟨c, hc, hplace⟩
    obtain ⟨rfl, rfl, rfl⟩ : c.row = i ∧ c.col = j ∧ c.tag = tag := by simpa using hplace
    exact ⟨c, h.ordered.cell?_of_mem hc, rfl⟩
  · rintro ⟨c, hc, rfl⟩
    obtain ⟨hmem, rfl, rfl⟩ := cell?_eq_some hc
    exact ⟨c, hmem, rfl⟩

/-- A written place reads as its last tag. -/
theorem lastTag_eq_some (h : m.Holds log) :
    lastTag log i j = some tag ↔ Written log i j ∧ m.value i j = tag := by
  rw [h.value, lastTag]
  cases hlast : lastAt log i j with
  | none => simp [lastAt_eq_none.mp hlast]
  | some c =>
      have hwritten : Written log i j := by
        by_contra hopen
        rw [lastAt_eq_none.mpr hopen] at hlast
        cases hlast
      simp [hwritten]

/-! ### Counting -/

/-- The cells whose tags have a property are as many as the written places that read so. -/
theorem encard_places (h : m.Holds log) (P : Int8 → Bool) :
    {p : Int × Int | Written log p.1 p.2 ∧ P (m.value p.1 p.2) = true}.encard =
      m.cells.countP fun c => P c.tag := by
  have hnodup : ((m.cells.filter fun c => P c.tag).map fun c => (c.row, c.col)).Nodup := by
    refine List.pairwise_map.mpr ((h.ordered.filter _).imp fun {c d} hbefore heq => ?_)
    have hrow : c.row = d.row := congrArg Prod.fst heq
    have hcol : c.col = d.col := congrArg Prod.snd heq
    exact Cell.not_isAt_of_isBefore hbefore (Cell.isAt_iff.mpr ⟨hrow, hcol⟩)
  have hplaces : {p : Int × Int | Written log p.1 p.2 ∧ P (m.value p.1 p.2) = true} =
      ((m.cells.filter fun c => P c.tag).map fun c => (c.row, c.col)).toFinset := by
    ext ⟨i, j⟩
    simp only [Set.mem_ofPred_eq, List.coe_toFinset, List.mem_map, List.mem_filter, Prod.mk.injEq]
    refine ⟨fun ⟨hwritten, hP⟩ => ?_, ?_⟩
    · have hmem := h.mem_each.mpr (h.lastTag_eq_some.mpr ⟨hwritten, rfl⟩)
      obtain ⟨c, hc, hplace⟩ := List.mem_map.mp hmem
      obtain ⟨rfl, rfl, htag⟩ : c.row = i ∧ c.col = j ∧ c.tag = m.value i j := by
        simpa using hplace
      exact ⟨c, ⟨hc, htag ▸ hP⟩, rfl, rfl⟩
    · rintro ⟨c, ⟨hc, hP⟩, rfl, rfl⟩
      have hmem : (c.row, c.col, c.tag) ∈ m.each := List.mem_map.mpr ⟨c, hc, rfl⟩
      obtain ⟨hwritten, hvalue⟩ := h.lastTag_eq_some.mp (h.mem_each.mp hmem)
      exact ⟨hwritten, hvalue ▸ hP⟩
  rw [hplaces, Set.encard_coe_eq_coe_finsetCard, List.toFinset_card_of_nodup hnodup,
    List.length_map, List.countP_eq_length_filter]

theorem count (h : m.Holds log) (tag : Int8) :
    (m.count tag : ℕ∞) = {p : Int × Int | Written log p.1 p.2 ∧ m.value p.1 p.2 = tag}.encard := by
  have hplaces := h.encard_places (· == tag)
  simp only [beq_iff_eq] at hplaces
  exact hplaces.symm

/-- The cells are as many as the places that do not read as null, and besides them the places that
were last written with the null value. -/
theorem valueCount (h : m.Holds log) :
    (m.valueCount : ℕ∞) =
      {p : Int × Int | m.value p.1 p.2 ≠ m.null}.encard + m.count m.null := by
  have hplaces : {p : Int × Int | m.value p.1 p.2 ≠ m.null} =
      {p : Int × Int | Written log p.1 p.2 ∧
        decide (¬ (m.value p.1 p.2 == m.null) = true) = true} := by
    ext ⟨i, j⟩
    simp only [Set.mem_ofPred_eq, decide_eq_true_eq, beq_iff_eq]
    refine (and_iff_right_of_imp fun hne => ?_).symm
    by_contra hopen
    exact hne (h.value_of_not_written hopen)
  rw [hplaces, h.encard_places fun t => decide (¬ (t == m.null) = true), ← Nat.cast_add,
    TagMatrix.valueCount, TagMatrix.count, Nat.add_comm]
  exact congrArg Nat.cast (List.length_eq_countP_add_countP _)

end Holds

/-- **Reading what was written.**  Whatever is written, in any order and anywhere, the cells stand
in row-major order, each inside the matrix.  A place reads as the tag of the last write that had an
effect there, or else as the null value.  A first write is taken exactly at a place of the matrix
where no write had an effect, and a write without effect changes nothing.  A walk meets each written
place once, in row-major order and with the tag that is read there, and a tag is counted as often as
it is read at a written place. -/
theorem holds_what_was_written (rows cols : Int) (null : Int8) (ws : List Write) :
    let m := (empty rows cols null).run ws
    let log := effective rows cols ws
    (m.cells.Pairwise fun c d => c.row < d.row ∨ c.row = d.row ∧ c.col < d.col) ∧
      (∀ c ∈ m.cells, InRange rows cols c.row c.col) ∧
      (∀ i j, m.value i j = (lastTag log i j).getD null) ∧
      (∀ i j tag, (m.setIfNull i j tag).1 = true ↔ InRange rows cols i j ∧ ¬ Written log i j) ∧
      (∀ w : Write, ¬ w.TakesEffect rows cols log → m.write w = m) ∧
      (m.each.Pairwise fun a b => a.1 < b.1 ∨ a.1 = b.1 ∧ a.2.1 < b.2.1) ∧
      (∀ i j tag, (i, j, tag) ∈ m.each ↔ Written log i j ∧ m.value i j = tag) ∧
      ∀ tag, (m.count tag : ℕ∞) =
        {p : Int × Int | Written log p.1 p.2 ∧ m.value p.1 p.2 = tag}.encard := by
  intro m log
  obtain ⟨h, hrows, hcols, hnull⟩ : m.Holds log ∧ m.rows = rows ∧ m.cols = cols ∧ m.null = null :=
    holds_run rows cols null ws
  have hinRange := h.inRange
  have hvalue := h.value
  have hfirst : ∀ i j tag, (m.setIfNull i j tag).1 = true ↔
      InRange m.rows m.cols i j ∧ ¬ Written log i j := fun i j tag => h.setIfNull_eq_true
  have hidle : ∀ w : Write, ¬ w.TakesEffect m.rows m.cols log → m.write w = m := fun w =>
    h.write_of_not_takesEffect
  rw [hrows, hcols] at hinRange
  simp only [hrows, hcols] at hfirst hidle
  simp only [hnull] at hvalue
  exact ⟨h.ordered.imp Cell.isBefore_iff.mp, hinRange, hvalue, hfirst, hidle, h.pairwise_each,
    fun i j tag => h.mem_each.trans h.lastTag_eq_some, h.count⟩

/-- A place is written over, one is kept from its second writer, and one lies outside. -/
example : ((empty 5 5 (-1)).run [.set 4 1 1, .setIfNull 1 1 1, .set 4 0 3, .setIfNull 1 1 2,
    .setIfNull 7 1 1, .set 4 1 5]).each = [(1, 1, 1), (4, 0, 3), (4, 1, 5)] := by decide +kernel

/-! ### The null value -/

/-- No place was last written with the null value. -/
def NullFree (log : List Cell) (null : Int8) : Prop := ∀ i j, lastTag log i j ≠ some null

namespace Holds

theorem nullFree_iff_each (h : m.Holds log) :
    (∀ e ∈ m.each, e.2.2 ≠ m.null) ↔ NullFree log m.null := by
  refine ⟨fun hall i j hlast => hall _ (h.mem_each.mpr hlast) rfl, fun hfree e he htag => ?_⟩
  obtain ⟨i, j, tag⟩ := e
  obtain rfl : tag = m.null := htag
  exact hfree i j (h.mem_each.mp he)

theorem nullFree_iff_count (h : m.Holds log) : m.count m.null = 0 ↔ NullFree log m.null := by
  rw [← h.nullFree_iff_each, TagMatrix.count, List.countP_eq_zero, each, List.forall_mem_map]
  simp only [beq_iff_eq, ne_eq]

theorem nullFree_iff_valueCount (h : m.Holds log) :
    (m.valueCount : ℕ∞) = {p : Int × Int | m.value p.1 p.2 ≠ m.null}.encard ↔
      NullFree log m.null := by
  have hcount := h.valueCount
  have hfinite : {p : Int × Int | m.value p.1 p.2 ≠ m.null}.encard ≠ ⊤ := by
    intro htop
    rw [htop, top_add] at hcount
    exact ENat.natCast_ne_top _ hcount
  obtain ⟨k, hk⟩ := ENat.ne_top_iff_exists.mp hfinite
  rw [← hk] at hcount ⊢
  rw [← h.nullFree_iff_count]
  norm_cast at hcount ⊢
  omega

theorem nullFree_iff_setIfNull (h : m.Holds log) :
    (∀ i j tag, (m.setIfNull i j tag).1 = true ↔
      InRange m.rows m.cols i j ∧ m.value i j = m.null) ↔ NullFree log m.null := by
  refine ⟨fun hall i j hlast => ?_, fun hfree i j tag => ?_⟩
  · -- a place that was last written with null reads as an open one and refuses a first write
    obtain ⟨hwritten, hvalue⟩ := h.lastTag_eq_some.mp hlast
    have htaken := (hall i j m.null).mpr ⟨h.inRange_of_written hwritten, hvalue⟩
    exact (h.setIfNull_eq_true.mp htaken).2 hwritten
  · rw [h.setIfNull_eq_true]
    refine and_congr_right fun _ => ⟨h.value_of_not_written, fun hvalue hwritten => ?_⟩
    exact hfree i j (h.lastTag_eq_some.mpr ⟨hwritten, hvalue⟩)

end Holds

/-- What the writes with an effect leave was asked for. -/
theorem exists_write_of_mem_effective {ws : List Write} {c : Cell}
    (hc : c ∈ effective rows cols ws) : ∃ w ∈ ws, w.cell = c := by
  induction ws using List.reverseRecOn with
  | nil => exact absurd hc List.not_mem_nil
  | append_singleton ws w ih =>
      rw [effective_concat, logged] at hc
      have hsplit : c ∈ effective rows cols ws ∨ c = w.cell := by
        split at hc
        · exact (List.mem_append.mp hc).imp_right List.mem_singleton.mp
        · exact .inl hc
      rcases hsplit with hc | rfl
      · obtain ⟨v, hv, hcell⟩ := ih hc
        exact ⟨v, List.mem_append_left _ hv, hcell⟩
      · exact ⟨w, by simp, rfl⟩

theorem nullFree_of_forall_ne {ws : List Write} (hws : ∀ w ∈ ws, w.cell.tag ≠ null) :
    NullFree (effective rows cols ws) null := by
  intro i j hlast
  obtain ⟨c, hc, rfl⟩ := Option.map_eq_some_iff.mp hlast
  obtain ⟨w, hw, rfl⟩ :=
    exists_write_of_mem_effective (List.mem_reverse.mp (List.mem_of_find?_eq_some hc))
  exact hws w hw rfl

/-- **When the null value marks the open places.**  Whatever is written, each of the following holds
exactly as long as no place was last written with the null value: there are as many cells as places
that do not read as null; a walk meets such places only; and a first write is taken exactly at the
places of the matrix that read as null.  All is well if no write that is asked for has the null
value as its tag. -/
theorem null_marks_open_iff (rows cols : Int) (null : Int8) (ws : List Write) :
    let m := (empty rows cols null).run ws
    let log := effective rows cols ws
    ((m.valueCount : ℕ∞) = {p : Int × Int | m.value p.1 p.2 ≠ m.null}.encard ↔
        NullFree log null) ∧
      ((∀ e ∈ m.each, e.2.2 ≠ m.null) ↔ NullFree log null) ∧
      ((∀ i j tag, (m.setIfNull i j tag).1 = true ↔
        InRange rows cols i j ∧ m.value i j = m.null) ↔ NullFree log null) ∧
      ((∀ w ∈ ws, w.cell.tag ≠ null) → NullFree log null) := by
  intro m log
  obtain ⟨h, hrows, hcols, hnull⟩ : m.Holds log ∧ m.rows = rows ∧ m.cols = cols ∧ m.null = null :=
    holds_run rows cols null ws
  have hvalueCount := h.nullFree_iff_valueCount
  have heach := h.nullFree_iff_each
  have hsetIfNull := h.nullFree_iff_setIfNull
  rw [hrows, hcols] at hsetIfNull
  rw [hnull] at hvalueCount heach hsetIfNull ⊢
  exact ⟨hvalueCount, heach, hsetIfNull, nullFree_of_forall_ne⟩

/-- A single place is written with the null value.  No place reads as anything else, and yet there
is a cell, a walk meets it, and a first write of the place, which reads as null, is refused. -/
theorem nullWritten_kept :
    let m := (empty 1 1 0).run [.set 0 0 0]
    (m.valueCount = 1 ∧ {p : Int × Int | m.value p.1 p.2 ≠ m.null} = ∅) ∧
      (0, 0, m.null) ∈ m.each ∧
      InRange 1 1 0 0 ∧ m.value 0 0 = m.null ∧ (m.setIfNull 0 0 1).1 = false := by
  have hnull : ∀ i j, ((empty 1 1 0).run [.set 0 0 0]).value i j = 0 := by
    have hlog : effective 1 1 [.set 0 0 0] = [] ++ [⟨0, 0, 0⟩] := by decide
    obtain ⟨h, -, -, hnull⟩ := holds_run 1 1 0 [.set 0 0 0]
    intro i j
    rw [h.value, hnull, hlog, lastTag, lastAt_concat]
    split <;> rfl
  refine ⟨⟨by decide +kernel, ?_⟩, by decide +kernel, by decide, hnull 0 0, by decide +kernel⟩
  exact Set.eq_empty_iff_forall_notMem.mpr fun p hp => hp (hnull p.1 p.2)

end Lookahead.TagMatrix
