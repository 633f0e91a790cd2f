import Mathlib.Data.List.Nodup
import Mathlib.Data.List.Perm.Subperm
import Mathlib.Logic.Relation
import Lookahead.LL1.Check
import Lookahead.Proofs.Growth
import Lookahead.Proofs.Rules

/-!
# Leads

The LL(1) check follows first symbols only.  A rule of `A` that begins with `X` makes one step from
`A` to `X` (`HasFront`), and any number of steps from the first symbol of a production lead to what
can come in front of it when nonterminals there are replaced (`LedBy`).

The search for leads keeps a list of nonterminals without repetitions.  There are 26 of them, so its
passes end, and they end with all nonterminals that the steps lead to (`mem_leadNonterminals`).

**Leads** (`mem_leads`).  The leads of a production are the symbols other than nonterminals that it
is led by.
-/

namespace Lookahead

namespace Grammar

variable {g : Grammar}

/-! ### First symbols -/

/-- A rule of `A` begins with `X`. -/
def HasFront (g : Grammar) (A X : Symbol) : Prop :=
  ∃ r ∈ g.rules, r.lhs = A ∧ r.rhs.head? = some X

/-- `X` stands in front of `p`, or comes there when nonterminals in front are replaced by their
productions. -/
def LedBy (g : Grammar) (p : Production) (X : Symbol) : Prop :=
  ∃ Y, p.head? = some Y ∧ Relation.ReflTransGen g.HasFront Y X

theorem HasFront.isNonterminal {A X : Symbol} (h : g.HasFront A X) : A.isNonterminal := by
  obtain ⟨r, hr, rfl, -⟩ := h
  exact isNonterminal_lhs hr

theorem mem_frontSymbols {A X : Symbol} : X ∈ g.frontSymbols A ↔ g.HasFront A X := by
  simp only [frontSymbols, List.mem_filterMap, mem_productions]
  refine ⟨?_, ?_⟩
  · rintro ⟨p, ⟨r, hr, hlhs, rfl⟩, hX⟩
    exact ⟨r, hr, hlhs, hX⟩
  · rintro ⟨r, hr, hlhs, hX⟩
    exact ⟨r.rhs, ⟨r, hr, hlhs, rfl⟩, hX⟩

/-- A symbol without rules leads to nothing but itself. -/
theorem eq_of_reflTransGen_hasFront {X Y : Symbol} (hX : ¬ X.isNonterminal)
    (h : Relation.ReflTransGen g.HasFront X Y) : Y = X := by
  rcases Relation.ReflTransGen.cases_head h with rfl | ⟨Z, hZ, -⟩
  · rfl
  · exact absurd hZ.isNonterminal hX

/-! ### The search -/

theorem mem_leadPass {seen : List Symbol} {B : Symbol} :
    B ∈ g.leadPass seen ↔ B ∈ seen ∨ (∃ A ∈ seen, g.HasFront A B) ∧ B.isNonterminal := by
  rw [leadPass, List.mem_eraseDups, List.mem_append, List.mem_filter, List.mem_flatMap]
  simp only [mem_frontSymbols]

/-- Nonterminals, each once. -/
def Seen (seen : List Symbol) : Prop := seen.Nodup ∧ ∀ A ∈ seen, A.isNonterminal

/-- There are 26 nonterminals. -/
theorem Seen.length_le {seen : List Symbol} (h : Seen seen) : seen.length ≤ 26 := by
  have hsub : seen ⊆ (List.finRange 26).map Symbol.nonterminal := by
    intro A hA
    have hnon := h.2 A hA
    cases A with
    | nonterminal i => simp
    | _ => cases hnon
  simpa using (h.1.subperm hsub).length_le

theorem grows_leadPass (g : Grammar) : Grows Seen List.length g.leadPass where
  keeps seen h := by
    refine ⟨nodup_eraseDups _, fun B hB => ?_⟩
    rcases mem_leadPass.mp hB with hB | ⟨-, hB⟩
    · exact h.2 B hB
    · exact hB
  le seen h := by
    rw [leadPass, eraseDups_append_of_nodup h.1, List.length_append]
    exact Nat.le_add_right _ _
  fixed seen h hle := by
    rw [leadPass, eraseDups_append_of_nodup h.1] at hle ⊢
    refine List.append_right_eq_self.mpr (List.length_eq_zero_iff.mp ?_)
    rw [List.length_append] at hle
    omega

theorem mem_leadNonterminals_self (g : Grammar) (A : Symbol) : A ∈ g.leadNonterminals A :=
  saturate_induction (P := fun seen => A ∈ seen) (fun _ h => mem_leadPass.mpr (.inl h)) _
    (List.mem_singleton.mpr rfl)

/-- The search ends with a list that no step leads out of. -/
theorem mem_leadNonterminals_of_hasFront {A B C : Symbol} (hA : A.isNonterminal)
    (hB : B ∈ g.leadNonterminals A) (hC : g.HasFront B C) (hnon : C.isNonterminal) :
    C ∈ g.leadNonterminals A := by
  have hstart : Seen [A] := ⟨List.nodup_singleton A, by simpa using hA⟩
  have hfix : g.leadPass (g.leadNonterminals A) = g.leadNonterminals A :=
    (grows_leadPass g).step_saturate (fun _ h => h.length_le) hstart
      (by rw [List.length_singleton]; omega)
  rw [← hfix]
  exact mem_leadPass.mpr (.inr ⟨⟨B, hB, hC⟩, hnon⟩)

/-- Every nonterminal that the search finds can come in front of `A`. -/
theorem leadNonterminals_sound {A : Symbol} (hA : A.isNonterminal) :
    ∀ B ∈ g.leadNonterminals A, B.isNonterminal ∧ Relation.ReflTransGen g.HasFront A B := by
  refine saturate_induction (P := fun seen : List Symbol => ∀ B ∈ seen, B.isNonterminal ∧
    Relation.ReflTransGen g.HasFront A B) (fun seen hseen C hC => ?_) _ fun C hC => ?_
  · rcases mem_leadPass.mp hC with hC | ⟨⟨B, hB, hBC⟩, hC⟩
    · exact hseen C hC
    · exact ⟨hC, (hseen B hB).2.tail hBC⟩
  · obtain rfl := List.mem_singleton.mp hC
    exact ⟨hA, .refl⟩

/-- **The search finds all nonterminals that can come in front of `A`**, and nothing else. -/
theorem mem_leadNonterminals {A B : Symbol} (hA : A.isNonterminal) :
    B ∈ g.leadNonterminals A ↔ B.isNonterminal ∧ Relation.ReflTransGen g.HasFront A B := by
  refine ⟨leadNonterminals_sound hA B, ?_⟩
  rintro ⟨hB, h⟩
  induction h with
  | refl => exact mem_leadNonterminals_self g A
  | tail _ hBC ih => exact mem_leadNonterminals_of_hasFront hA (ih hBC.isNonterminal) hBC hB

/-! ### Leads -/

theorem mem_leadsOf {A X : Symbol} (hA : A.isNonterminal) :
    X ∈ g.leadsOf A ↔ ¬ X.isNonterminal ∧ Relation.ReflTransGen g.HasFront A X := by
  rw [leadsOf, SymbolSet.mem_ofList, List.mem_filter, List.mem_flatMap, Bool.not_eq_true',
    ← Bool.not_eq_true, and_comm]
  refine and_congr_right fun hX => ⟨?_, fun h => ?_⟩
  · rintro ⟨B, hB, hBX⟩
    exact ((mem_leadNonterminals hA).mp hB).2.tail (mem_frontSymbols.mp hBX)
  · rcases Relation.ReflTransGen.cases_tail h with rfl | ⟨B, hAB, hBX⟩
    · exact absurd hA hX
    · exact ⟨B, (mem_leadNonterminals hA).mpr ⟨hBX.isNonterminal, hAB⟩,
        mem_frontSymbols.mpr hBX⟩

/-- **The leads of a production** are the symbols other than nonterminals that it is led by. -/
theorem mem_leads {p : Production} {X : Symbol} :
    X ∈ g.leads p ↔ ¬ X.isNonterminal ∧ g.LedBy p X := by
  cases p with
  | nil => simp [leads, LedBy]
  | cons Y rest =>
      have hled : g.LedBy (Y :: rest) X ↔ Relation.ReflTransGen g.HasFront Y X := by
        simp [LedBy]
      rw [hled, leads]
      split
      · rename_i hY
        exact mem_leadsOf hY
      · rename_i hY
        rw [SymbolSet.mem_ofList, List.mem_singleton]
        refine ⟨?_, fun h => eq_of_reflTransGen_hasFront hY h.2⟩
        rintro rfl
        exact ⟨hY, .refl⟩

end Grammar

end Lookahead
