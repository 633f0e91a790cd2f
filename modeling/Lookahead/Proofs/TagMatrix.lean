import Mathlib.Data.List.Basic
import Lookahead.TagMatrix

/-!
# The cells of a matrix

The written places of a matrix are kept in row-major order, each once (`Ordered`), and writing keeps
them so.  A place is looked up by halving the cells.  Where they are in order, the search ends
behind the cells before the place and in front of all others (`Ordered.split`): so it finds the one
cell that is there (`Ordered.cell?_of_mem`), and a cell that is put there is in its place.  Shifting
the cells behind it to the right therefore comes to the same as putting the new cell in order
(`Ordered.put_eq`), and a write is seen at its own place and nowhere else
(`Ordered.cell?_insertOrdered`).
-/

namespace Lookahead

namespace Cell

variable {c d : Cell} {i j : Int}

/-! ### Places -/

theorem isBefore_iff : c.isBefore i j = true ↔ c.row < i ∨ c.row = i ∧ c.col < j := by
  simp [isBefore]

theorem isAt_iff : c.isAt i j = true ↔ c.row = i ∧ c.col = j := by
  simp [isAt]

theorem isBefore_trans (h : c.isBefore d.row d.col = true) (h' : d.isBefore i j = true) :
    c.isBefore i j = true := by
  rw [isBefore_iff] at *
  omega

theorem not_isAt_of_isBefore (h : c.isBefore i j = true) : ¬ c.isAt i j = true := by
  rw [isBefore_iff] at h
  rw [isAt_iff]
  omega

/-- Of two cells at different places one is before the other. -/
theorem isBefore_of_not (hbefore : ¬ c.isBefore d.row d.col = true)
    (hat : ¬ c.isAt d.row d.col = true) : d.isBefore c.row c.col = true := by
  rw [isBefore_iff] at *
  rw [isAt_iff] at hat
  omega

end Cell

namespace TagMatrix

variable {m : TagMatrix} {new c : Cell} {cells : List Cell} {i j : Int}

/-! ### Order -/

/-- The cells are listed in row-major order. -/
def Ordered (m : TagMatrix) : Prop :=
  m.cells.Pairwise fun c d => c.isBefore d.row d.col = true

/-- Puts a cell in its place among ordered ones, over the cell that may already be there. -/
def insertOrdered (new : Cell) : List Cell → List Cell
  | [] => [new]
  | c :: rest =>
    if c.isBefore new.row new.col then c :: insertOrdered new rest
    else if c.isAt new.row new.col then new :: rest
    else new :: c :: rest

theorem ordered_empty (rows cols : Int) (null : Int8) : (empty rows cols null).Ordered :=
  List.Pairwise.nil

theorem mem_of_mem_insertOrdered (h : c ∈ insertOrdered new cells) : c = new ∨ c ∈ cells := by
  induction cells with
  | nil => exact .inl (List.mem_singleton.mp h)
  | cons d rest ih =>
      unfold insertOrdered at h
      split at h
      · rcases List.mem_cons.mp h with rfl | h
        · exact .inr List.mem_cons_self
        · exact (ih h).imp_right (List.mem_cons_of_mem d)
      · split at h
        · exact (List.mem_cons.mp h).imp_right (List.mem_cons_of_mem d)
        · exact List.mem_cons.mp h

/-- At a place without a cell nothing is written over. -/
theorem mem_insertOrdered (hfree : ∀ d ∈ cells, ¬ d.isAt new.row new.col = true) :
    c ∈ insertOrdered new cells ↔ c = new ∨ c ∈ cells := by
  refine ⟨mem_of_mem_insertOrdered, fun h => ?_⟩
  induction cells with
  | nil => simpa [insertOrdered] using h
  | cons d rest ih =>
      obtain ⟨hd, hrest⟩ := List.forall_mem_cons.mp hfree
      rw [insertOrdered, if_neg hd]
      split
      · rcases h with rfl | h
        · exact List.mem_cons_of_mem d (ih hrest (.inl rfl))
        · rcases List.mem_cons.mp h with rfl | h
          · exact List.mem_cons_self
          · exact List.mem_cons_of_mem d (ih hrest (.inr h))
      · exact List.mem_cons.mpr h

theorem pairwise_insertOrdered
    (h : cells.Pairwise fun c d => c.isBefore d.row d.col = true) :
    (insertOrdered new cells).Pairwise fun c d => c.isBefore d.row d.col = true := by
  induction cells with
  | nil => exact List.pairwise_singleton _ _
  | cons d rest ih =>
      obtain ⟨hd, hrest⟩ := List.pairwise_cons.mp h
      unfold insertOrdered
      split
      · rename_i hbefore
        refine List.pairwise_cons.mpr ⟨fun c hc => ?_, ih hrest⟩
        rcases mem_of_mem_insertOrdered hc with rfl | hc
        · exact hbefore
        · exact hd c hc
      · rename_i hbefore
        split
        · -- the new cell takes the place of `d`
          rename_i hat
          obtain ⟨hrow, hcol⟩ := Cell.isAt_iff.mp hat
          refine List.pairwise_cons.mpr ⟨fun c hc => ?_, hrest⟩
          rw [Cell.isBefore_iff, ← hrow, ← hcol]
          exact Cell.isBefore_iff.mp (hd c hc)
        · rename_i hat
          have hnew : new.isBefore d.row d.col = true := Cell.isBefore_of_not hbefore hat
          refine List.pairwise_cons.mpr ⟨fun c hc => ?_, h⟩
          rcases List.mem_cons.mp hc with rfl | hc
          · exact hnew
          · exact Cell.isBefore_trans hnew (hd c hc)

/-! ### Halving -/

theorem search_le {lo hi : Nat} {hhi : hi ≤ cells.length} (hle : lo ≤ hi) :
    search cells i j lo hi hhi ≤ hi := by
  fun_induction search cells i j lo hi hhi with
  | case1 lo hi hhi hlt mid hmid hbefore ih => exact ih (by omega)
  | case2 lo hi hhi hlt mid hmid hbefore ih => exact Nat.le_trans (ih (by omega)) (by omega)
  | case3 => exact hle

/-- The search keeps the cells before the place to the left of the range in question, and all other
cells to the right of it. -/
theorem search_split (h : cells.Pairwise fun c d => c.isBefore d.row d.col = true) {lo hi : Nat}
    {hhi : hi ≤ cells.length} (hle : lo ≤ hi)
    (hleft : ∀ c ∈ cells.take lo, c.isBefore i j = true)
    (hright : ∀ c ∈ cells.drop hi, ¬ c.isBefore i j = true) :
    (∀ c ∈ cells.take (search cells i j lo hi hhi), c.isBefore i j = true) ∧
      ∀ c ∈ cells.drop (search cells i j lo hi hhi), ¬ c.isBefore i j = true := by
  fun_induction search cells i j lo hi hhi with
  | case1 lo hi hhi hlt mid hmid hbefore ih =>
      -- what stands before the cell in the middle is before the place as well
      refine ih (by omega) (fun c hc => ?_) hright
      rw [List.take_add_one, List.getElem?_eq_getElem hmid] at hc
      rcases List.mem_append.mp hc with hc | hc
      · have hpairs := h
        rw [← List.take_append_drop mid cells, List.drop_eq_getElem_cons hmid] at hpairs
        have hcmid := (List.pairwise_append.mp hpairs).2.2 c hc cells[mid] List.mem_cons_self
        exact Cell.isBefore_trans hcmid hbefore
      · exact List.mem_singleton.mp hc ▸ hbefore
  | case2 lo hi hhi hlt mid hmid hbefore ih =>
      -- what stands behind the cell in the middle is no more before the place than this one
      refine ih (by omega) hleft fun c hc hcbefore => ?_
      have hpairs := h.sublist (List.drop_sublist mid cells)
      rw [List.drop_eq_getElem_cons hmid] at hc hpairs
      rcases List.mem_cons.mp hc with rfl | hc
      · exact hbefore hcbefore
      · exact hbefore (Cell.isBefore_trans ((List.pairwise_cons.mp hpairs).1 c hc) hcbefore)
  | case3 lo hi hhi hlt =>
      obtain rfl : lo = hi := Nat.le_antisymm hle (Nat.not_lt.mp hlt)
      exact ⟨hleft, hright⟩

theorem position_le (m : TagMatrix) (i j : Int) : m.position i j ≤ m.cells.length :=
  search_le (Nat.zero_le _)

/-- The cells before a place, and the others, the first of which is there if any is. -/
theorem Ordered.split (h : m.Ordered) (i j : Int) :
    ∃ front back, m.cells = front ++ back ∧ m.position i j = front.length ∧
      (∀ c ∈ front, c.isBefore i j = true) ∧ ∀ c ∈ back, ¬ c.isBefore i j = true := by
  obtain ⟨hfront, hback⟩ : (∀ c ∈ m.cells.take (m.position i j), c.isBefore i j = true) ∧
      ∀ c ∈ m.cells.drop (m.position i j), ¬ c.isBefore i j = true :=
    search_split h (Nat.zero_le _) (by simp) (by simp)
  refine ⟨m.cells.take (m.position i j), m.cells.drop (m.position i j),
    (List.take_append_drop _ _).symm, ?_, hfront, hback⟩
  rw [List.length_take, Nat.min_eq_left (m.position_le i j)]

/-- Behind the first of the cells that are not before a place none is there. -/
theorem find?_back {back : List Cell}
    (h : (c :: back).Pairwise fun c d => c.isBefore d.row d.col = true)
    (hback : ∀ d ∈ c :: back, ¬ d.isBefore i j = true) :
    (c :: back).find? (fun d => d.isAt i j) = (some c).filter fun c => c.isAt i j := by
  have hnone : back.find? (fun d => d.isAt i j) = none := by
    rw [List.find?_eq_none]
    intro d hd hat
    obtain ⟨rfl, rfl⟩ := Cell.isAt_iff.mp hat
    exact hback c List.mem_cons_self ((List.pairwise_cons.mp h).1 d hd)
  rw [List.find?_cons, hnone, Option.filter_some]
  cases c.isAt i j <;> rfl

/-- **Halving finds what reading all cells finds.** -/
theorem Ordered.cell?_eq_find? (h : m.Ordered) (i j : Int) :
    m.cell? i j = m.cells.find? fun c => c.isAt i j := by
  obtain ⟨front, back, hcells, hposition, hfront, hback⟩ := h.split i j
  have hnone : front.find? (fun c => c.isAt i j) = none :=
    List.find?_eq_none.mpr fun c hc => Cell.not_isAt_of_isBefore (hfront c hc)
  rw [Ordered, hcells] at h
  rw [cell?, hposition, hcells, List.find?_append, hnone, Option.none_or,
    List.getElem?_append_right (Nat.le_refl _), Nat.sub_self]
  cases back with
  | nil => rfl
  | cons c back => exact (find?_back (List.pairwise_append.mp h).2.1 hback).symm

/-! ### Looking up -/

/-- What was put at a place is found there, and all else is found where it was. -/
theorem find?_insertOrdered :
    (insertOrdered new cells).find? (fun c => c.isAt i j) =
      if new.isAt i j then some new else cells.find? fun c => c.isAt i j := by
  induction cells with
  | nil =>
      rw [insertOrdered, List.find?_cons]
      cases new.isAt i j <;> rfl
  | cons d rest ih =>
      unfold insertOrdered
      split
      · rename_i hbefore
        rw [List.find?_cons, List.find?_cons, ih]
        by_cases hnew : new.isAt i j = true
        · obtain ⟨rfl, rfl⟩ := Cell.isAt_iff.mp hnew
          simp [hnew, Cell.not_isAt_of_isBefore hbefore]
        · simp [hnew]
      · split
        · -- `d` stood where the new cell stands
          rename_i hat
          obtain ⟨hrow, hcol⟩ := Cell.isAt_iff.mp hat
          have hsame : d.isAt i j = new.isAt i j := by rw [Cell.isAt, Cell.isAt, hrow, hcol]
          rw [List.find?_cons, List.find?_cons, hsame]
          cases new.isAt i j <;> rfl
        · rw [List.find?_cons]
          cases new.isAt i j <;> rfl

theorem Ordered.cell?_insertOrdered (h : m.Ordered) :
    ({ m with cells := insertOrdered new m.cells } : TagMatrix).cell? i j =
      if new.isAt i j then some new else m.cell? i j := by
  have hnew : ({ m with cells := insertOrdered new m.cells } : TagMatrix).Ordered :=
    pairwise_insertOrdered h
  rw [hnew.cell?_eq_find?, find?_insertOrdered, h.cell?_eq_find?]

theorem cell?_eq_some (h : m.cell? i j = some c) : c ∈ m.cells ∧ c.row = i ∧ c.col = j := by
  unfold cell? at h
  obtain ⟨hget, hat⟩ := Option.filter_eq_some_iff.mp h
  exact ⟨List.mem_of_getElem? hget, Cell.isAt_iff.mp hat⟩

theorem Ordered.cell?_eq_none (h : m.Ordered) :
    m.cell? i j = none ↔ ∀ c ∈ m.cells, ¬ c.isAt i j = true := by
  rw [h.cell?_eq_find?, List.find?_eq_none]

/-- No two cells share a place, so a cell is found at its own. -/
theorem Ordered.cell?_of_mem (h : m.Ordered) (hc : c ∈ m.cells) :
    m.cell? c.row c.col = some c := by
  rw [h.cell?_eq_find?]
  unfold Ordered at h
  generalize m.cells = cells at h hc
  induction cells with
  | nil => exact absurd hc List.not_mem_nil
  | cons d rest ih =>
      obtain ⟨hd, hrest⟩ := List.pairwise_cons.mp h
      rw [List.find?_cons]
      rcases List.mem_cons.mp hc with rfl | hc
      · simp [Cell.isAt]
      · simp [Cell.not_isAt_of_isBefore (hd c hc), ih hrest hc]

/-! ### Putting a cell in its place -/

/-- The copy to the right makes room at the place, at both ends of the list as well as between. -/
theorem insertAt_append {α : Type} (front back : List α) (a : α) :
    insertAt (front ++ back) front.length a = front ++ a :: back := by
  have hlength : (front ++ back ++ [a]).length - (front.length + 1) = back.length := by
    simp only [List.length_append, List.length_singleton]
    omega
  have hroom : ∃ b, (back ++ [a]).take 1 = [b] := by
    cases back with
    | nil => exact ⟨a, rfl⟩
    | cons b rest => exact ⟨b, rfl⟩
  obtain ⟨b, hb⟩ := hroom
  dsimp only [insertAt]
  rw [hlength, List.append_assoc, List.take_length_add_append, List.drop_left, List.take_left, hb,
    List.append_assoc, List.set_append_right _ _ (Nat.le_refl _), Nat.sub_self]
  rfl

theorem insertOrdered_append {front back : List Cell}
    (hfront : ∀ c ∈ front, c.isBefore new.row new.col = true) :
    insertOrdered new (front ++ back) = front ++ insertOrdered new back := by
  induction front with
  | nil => rfl
  | cons c rest ih =>
      obtain ⟨hc, hrest⟩ := List.forall_mem_cons.mp hfront
      rw [List.cons_append, insertOrdered, if_pos hc, ih hrest, List.cons_append]

/-- **Putting is putting in order.**  Where nothing is to be kept, the cell that is written over or
shifted in stands where it belongs. -/
theorem Ordered.put_eq (h : m.Ordered) (hcovers : m.covers i j = true) {tag : Int8}
    {overwrite : Bool} (hfree : overwrite = true ∨ m.cell? i j = none) :
    m.put i j tag overwrite =
      (true, { m with cells := insertOrdered ⟨i, j, tag⟩ m.cells }) := by
  obtain ⟨front, back, hcells, hposition, hfront, hback⟩ := h.split i j
  have hget : m.cells[m.position i j]? = back.head? := by
    rw [hposition, hcells, List.getElem?_append_right (Nat.le_refl _), Nat.sub_self,
      List.head?_eq_getElem?]
  have hcell : m.cell? i j = back.head?.filter fun c => c.isAt i j := by rw [cell?, hget]
  rw [hcell] at hfree
  rw [put, if_pos hcovers, hcell, hposition, hcells, insertOrdered_append hfront, insertAt_append]
  cases back with
  | nil => rfl
  | cons c rest =>
      have hnot : ¬ c.isBefore i j = true := hback c List.mem_cons_self
      rw [List.head?_cons, Option.filter_some] at hfree ⊢
      rw [insertOrdered, if_neg hnot]
      by_cases hat : c.isAt i j = true
      · -- the place was written: its tag is replaced
        obtain ⟨rfl, rfl⟩ := Cell.isAt_iff.mp hat
        have hover : overwrite = true := by simpa [hat] using hfree
        simp [hat, hover, List.modify_eq_take_drop]
      · simp [hat]

/-! ### Writes -/

theorem covers_iff : m.covers i j = true ↔ 0 ≤ i ∧ 0 ≤ j ∧ i < m.rows ∧ j < m.cols :=
  decide_eq_true_iff

theorem put_of_not_covers (h : ¬ m.covers i j = true) (tag : Int8) (overwrite : Bool) :
    m.put i j tag overwrite = (false, m) := if_neg h

/-- A place in the matrix that was never written takes its first tag. -/
theorem Ordered.setIfNull_of_open (h : m.Ordered) (hcovers : m.covers i j = true)
    (hnone : m.cell? i j = none) (tag : Int8) :
    m.setIfNull i j tag = (true, { m with cells := insertOrdered ⟨i, j, tag⟩ m.cells }) :=
  h.put_eq hcovers (.inr hnone)

end TagMatrix

end Lookahead
