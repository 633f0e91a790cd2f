import Mathlib.Data.List.Perm.Subperm
import Lookahead.SymbolSet
import Lookahead.Proofs.Growth
import Lookahead.Proofs.Rules

/-!
# Sets of symbols are determined by their members

A set of symbols lists its members in increasing order.  All operations keep this order, so sets
with the same members are the same set (`SymbolSet.eq_of_mem_iff`).  Adding symbols grows a set in
the sense of `Grows`, whatever the order.
-/

namespace Lookahead

namespace Symbol

theorem lt_irrefl (X : Symbol) : ¬ X < X := Nat.lt_irrefl _

theorem lt_trans {X Y Z : Symbol} (h₁ : X < Y) (h₂ : Y < Z) : X < Z := Nat.lt_trans h₁ h₂

theorem lt_of_not_lt {X Y : Symbol} (h : ¬ X < Y) (hne : X ≠ Y) : Y < X := by
  rcases Nat.lt_trichotomy X.char.toNat Y.char.toNat with h' | h' | h'
  · exact absurd h' h
  · exact absurd (char_injective (Char.toNat_inj.mp h')) hne
  · exact h'

end Symbol

namespace SymbolSet

variable {S T : SymbolSet}

/-! ### Order -/

/-- The members are listed in increasing order. -/
def Ordered (S : SymbolSet) : Prop := S.toList.Pairwise (· < ·)

theorem ordered_empty : empty.Ordered := List.Pairwise.nil

theorem pairwise_insertOrdered {X : Symbol} {l : List Symbol} (h : l.Pairwise (· < ·)) :
    (insertOrdered X l).Pairwise (· < ·) := by
  induction l with
  | nil => exact List.pairwise_singleton _ _
  | cons Y rest ih =>
      obtain ⟨hY, hrest⟩ := List.pairwise_cons.mp h
      unfold insertOrdered
      split
      · rename_i hlt
        refine List.pairwise_cons.mpr ⟨fun Z hZ => ?_, ih hrest⟩
        rcases mem_insertOrdered.mp hZ with rfl | hZ
        · exact hlt
        · exact hY Z hZ
      · split
        · exact h
        · rename_i hlt hne
          have hX : X < Y := Symbol.lt_of_not_lt hlt hne
          refine List.pairwise_cons.mpr ⟨fun Z hZ => ?_, h⟩
          rcases List.mem_cons.mp hZ with rfl | hZ
          · exact hX
          · exact Symbol.lt_trans hX (hY Z hZ)

theorem Ordered.insert (h : S.Ordered) (X : Symbol) : (S.insert X).Ordered :=
  pairwise_insertOrdered h

theorem Ordered.insertAll (h : S.Ordered) (syms : List Symbol) : (S.insertAll syms).Ordered := by
  induction syms generalizing S with
  | nil => exact h
  | cons X rest ih => exact ih (h.insert X)

theorem ordered_ofList (syms : List Symbol) : (ofList syms).Ordered :=
  ordered_empty.insertAll syms

theorem Ordered.union (h : S.Ordered) (T : SymbolSet) (withEpsilon : Bool) :
    (S.union T withEpsilon).Ordered :=
  h.insertAll _

theorem Ordered.nodup (h : S.Ordered) : S.toList.Nodup := by
  refine List.Pairwise.imp (fun {X Y} hlt => ?_) h
  rintro rfl
  exact Symbol.lt_irrefl X hlt

/-- What is smaller than a member is listed before it. -/
theorem Ordered.mem_below_of_lt (h : S.Ordered) {X Y : Symbol} {below above : List Symbol}
    (hsplit : S.toList = below ++ X :: above) (hY : Y ∈ S) (hlt : Y < X) : Y ∈ below := by
  have hpairs : (below ++ X :: above).Pairwise (· < ·) := hsplit ▸ h
  have hmem : Y ∈ below ++ X :: above := hsplit ▸ hY
  refine (List.mem_append.mp hmem).resolve_right fun hY => ?_
  rcases List.mem_cons.mp hY with rfl | hY
  · exact Symbol.lt_irrefl Y hlt
  · have hXY := (List.pairwise_cons.mp (List.pairwise_append.mp hpairs).2.1).1 Y hY
    exact Symbol.lt_irrefl X (Symbol.lt_trans hXY hlt)

/-- **Sets with the same members are equal.** -/
theorem eq_of_mem_iff (hS : S.Ordered) (hT : T.Ordered) (h : ∀ X, X ∈ S ↔ X ∈ T) : S = T := by
  have hperm : S.toList.Perm T.toList := (List.perm_ext_iff_of_nodup hS.nodup hT.nodup).mpr h
  have hlist : S.toList = T.toList :=
    hperm.eq_of_pairwise (fun _ _ _ _ h₁ h₂ => absurd (Symbol.lt_trans h₁ h₂) (Symbol.lt_irrefl _))
      hS hT
  cases S
  exact congrArg SymbolSet.mk hlist

/-- Adding members changes nothing. -/
theorem Ordered.insertAll_eq_self (h : S.Ordered) {syms : List Symbol} (hsyms : ∀ X ∈ syms, X ∈ S) :
    S.insertAll syms = S :=
  eq_of_mem_iff (h.insertAll syms) h fun X => by
    rw [mem_insertAll]
    exact or_iff_right_of_imp (hsyms X)

/-! ### Growth -/

theorem length_insertOrdered (X : Symbol) (l : List Symbol) :
    l.length ≤ (insertOrdered X l).length ∧
      ((insertOrdered X l).length ≤ l.length → insertOrdered X l = l) := by
  induction l with
  | nil => simp [insertOrdered]
  | cons Y rest ih =>
      unfold insertOrdered
      split
      · simpa using ih
      · split <;> simp

theorem grows_insertAll (syms : List Symbol) :
    Grows (fun _ => True) size fun S => S.insertAll syms := by
  refine Grows.foldl fun X _ => ⟨fun _ _ => trivial, fun S _ => ?_, fun S _ h => ?_⟩
  · exact (length_insertOrdered X S.toList).1
  · exact congrArg SymbolSet.mk ((length_insertOrdered X S.toList).2 h)

end SymbolSet

end Lookahead
