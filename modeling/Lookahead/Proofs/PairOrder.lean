import Mathlib.Data.List.Sort
import Lookahead.Relation.Basic

/-!
# The order of pairs

Symbols are ordered by their characters and are listed in the same order by their indices
(`Symbol.lt_iff_index_lt`).  So pairs, which are ordered by their left symbols and then by their
right ones, are ordered just as their places in a matrix are (`Pair.lt_iff_index_lt`).  The order is
strict, and between different pairs it is total: sorting pairs that do not repeat lists them in
increasing order (`Pair.pairwise_sort`), and no other list does that (`List.Pairwise.eq_of_mem_iff`
in the library).
-/

namespace Lookahead

namespace Symbol

variable {X Y : Symbol}

/-! ### Indices -/

theorem index_injective (h : X.index = Y.index) : X = Y := by
  rw [← atIndex_index X, h, atIndex_index]

theorem toNat_char_nonterminal (letter : Fin 26) :
    (nonterminal letter).char.toNat = 65 + letter.val := by
  revert letter
  decide

theorem toNat_char_terminal (letter : Fin 26) :
    (terminal letter).char.toNat = 97 + letter.val := by
  revert letter
  decide

/-- The characters of two symbols are ordered as their indices are. -/
theorem lt_iff_index_lt : X < Y ↔ X.index < Y.index := by
  have habsent : absent.char.toNat = 0 := rfl
  have hepsilon : epsilon.char.toNat = 1013 := rfl
  have hend : endMarker.char.toNat = 8592 := rfl
  rw [lt_iff]
  cases X <;> cases Y <;>
    simp only [toNat_char_nonterminal, toNat_char_terminal, habsent, hepsilon, hend, index] <;>
    omega

theorem index_range (h : X ≠ .absent) : 0 ≤ X.index ∧ X.index < count := by
  cases X with
  | absent => exact absurd rfl h
  | nonterminal letter | terminal letter =>
      simp only [index, count]
      omega
  | epsilon | endMarker => decide

end Symbol

namespace Pair

variable {p q : Pair} {ps : List Pair}

/-! ### Order -/

/-- Pairs are ordered as the places of a matrix. -/
theorem lt_iff_index_lt :
    p < q ↔ p.left.index < q.left.index ∨
      p.left.index = q.left.index ∧ p.right.index < q.right.index := by
  change p.left < q.left ∨ ¬ q.left < p.left ∧ p.right < q.right ↔ _
  simp only [Symbol.lt_iff_index_lt]
  omega

theorem eq_of_index_eq (hleft : p.left.index = q.left.index)
    (hright : p.right.index = q.right.index) : p = q := by
  cases p
  cases q
  exact (Pair.mk.injEq ..).mpr ⟨Symbol.index_injective hleft, Symbol.index_injective hright⟩

instance : Std.Irrefl (α := Pair) (· < ·) where
  irrefl p h := by
    rw [lt_iff_index_lt] at h
    omega

instance : Std.Antisymm (α := Pair) (· < ·) where
  antisymm p q h h' := by
    rw [lt_iff_index_lt] at h h'
    omega

theorem lt_of_not_lt (h : ¬ q < p) (hne : p ≠ q) : p < q := by
  have hindex : ¬ (p.left.index = q.left.index ∧ p.right.index = q.right.index) :=
    fun e => hne (eq_of_index_eq e.1 e.2)
  rw [lt_iff_index_lt] at h ⊢
  omega

/-! ### Sorting -/

instance : Std.Total fun p q : Pair => ¬ q < p where
  total p q := by
    rw [lt_iff_index_lt, lt_iff_index_lt]
    omega

instance : IsTrans Pair fun p q => ¬ q < p where
  trans p q s h h' := by
    rw [lt_iff_index_lt] at *
    omega

theorem insertOrdered_eq_orderedInsert (p : Pair) (l : List Pair) :
    insertOrdered p l = l.orderedInsert (fun p q => ¬ q < p) p := by
  induction l with
  | nil => rfl
  | cons q rest ih => rw [insertOrdered, List.orderedInsert_cons, ite_not, ih]

theorem sort_eq_insertionSort (ps : List Pair) :
    sort ps = ps.insertionSort fun p q => ¬ q < p := by
  induction ps with
  | nil => rfl
  | cons p rest ih =>
      rw [sort, List.foldr_cons, ← sort, ih, List.insertionSort_cons,
        insertOrdered_eq_orderedInsert]

theorem sort_perm (ps : List Pair) : (sort ps).Perm ps := by
  rw [sort_eq_insertionSort]
  exact List.perm_insertionSort _ ps

theorem pairwise_not_lt_sort (ps : List Pair) : (sort ps).Pairwise fun p q => ¬ q < p := by
  rw [sort_eq_insertionSort]
  exact List.pairwise_insertionSort _ ps

/-- Sorted pairs that do not repeat increase. -/
theorem pairwise_lt_of_nodup (hsorted : ps.Pairwise fun p q => ¬ q < p) (hnodup : ps.Nodup) :
    ps.Pairwise (· < ·) :=
  hsorted.imp₂ (fun _ _ hnot hne => lt_of_not_lt hnot hne) hnodup

/-- Pairs that do not repeat are sorted in increasing order. -/
theorem pairwise_sort (h : ps.Nodup) : (sort ps).Pairwise (· < ·) :=
  pairwise_lt_of_nodup (pairwise_not_lt_sort ps) ((sort_perm ps).nodup_iff.mpr h)

end Pair

end Lookahead
