import Lookahead.Proofs.SymbolSet
import Lookahead.Symbol.Code

/-!
# What sets of symbols answer

A set of symbols is asked whether a symbol is in it, whether it changed, whether it equals another
set and what it has in common with one.  Symbols are compared by their characters alone, and that is
enough: a character belongs to one symbol, so what compares equal is the same symbol, of the same
kind (`Symbol.compare_code_eq_eq`).

`Built` has the sets that come of any series of additions and unions.  They list their members in
increasing order, and therefore a set has as many members as it has different ones: it grew if and
only if something was new (`Ordered.add_fst_iff`), and two sets of one size, the first inside the
second, are the same (`Ordered.equals_iff`).

**Answers** (`answers_exact`).  All answers of sets that can be built are exact.
-/

namespace Lookahead

namespace Symbol

variable {X Y : Symbol}

/-! ### Comparing characters -/

theorem toNat_char_lt (X : Symbol) : X.char.toNat < 0x110000 := by
  have hvalid : X.char.toNat < 0xd800 ∨ 0xdfff < X.char.toNat ∧ X.char.toNat < 0x110000 :=
    X.char.valid
  omega

/-- Characters fit into a code, so that codes are ordered as characters are. -/
theorem char_code_lt_iff : X.code.char < Y.code.char ↔ X < Y :=
  Int32.ofNat_lt_iff_lt (Nat.lt_trans X.toNat_char_lt (by decide))
    (Nat.lt_trans Y.toNat_char_lt (by decide))

theorem compare_code_eq_lt : X.code.compare Y.code = .lt ↔ X < Y := by
  simp only [SymbolCode.compare, char_code_lt_iff]
  split_ifs with hlt hgt
  · exact iff_of_true rfl hlt
  · exact iff_of_false nofun hlt
  · exact iff_of_false nofun hlt

/-- Symbols that compare equal are the same. -/
theorem compare_code_eq_eq : X.code.compare Y.code = .eq ↔ X = Y := by
  simp only [SymbolCode.compare, char_code_lt_iff]
  split_ifs with hlt hgt
  · exact iff_of_false nofun fun e => lt_irrefl X (e ▸ hlt)
  · exact iff_of_false nofun fun e => lt_irrefl X (e ▸ hgt)
  · exact iff_of_true rfl (by_contra fun hne => hgt (lt_of_not_lt hlt hne))

end Symbol

namespace SymbolSet

variable {S T : SymbolSet} {syms : List Symbol} {withEpsilon : Bool}

/-! ### Everything that can be built -/

/-- The sets that can be built: those of given symbols, and from others by adding symbols and by
taking over the members of a set, which may be the set itself. -/
inductive Built : SymbolSet → Prop where
  | ofList (syms : List Symbol) : Built (ofList syms)
  | add {S : SymbolSet} (h : Built S) (syms : List Symbol) : Built (S.add syms).2
  | addAll {S T : SymbolSet} (h : Built S) (hT : Built T) (withEpsilon : Bool) :
      Built (S.addAll T withEpsilon).2

theorem Built.ordered (h : S.Built) : S.Ordered := by
  induction h with
  | ofList syms => exact ordered_ofList syms
  | add _ syms ih => exact ih.insertAll syms
  | @addAll _ T _ _ withEpsilon ih => exact ih.insertAll (T.offered withEpsilon)

/-! ### Changes -/

/-- The sizes are compared, but a set whose size stays is the same set. -/
theorem add_fst_iff_ne : (S.add syms).1 = true ↔ (S.add syms).2 ≠ S := by
  have hsize : (S.insertAll syms).size = S.size ↔ S.insertAll syms = S :=
    ⟨fun h => (grows_insertAll syms).fixed S trivial (Nat.le_of_eq h), fun h => by rw [h]⟩
  rw [add, bne_iff_ne, ne_eq, hsize]

/-- An addition changes a set if one of the symbols is new. -/
theorem Ordered.add_fst_iff (h : S.Ordered) : (S.add syms).1 = true ↔ ∃ X ∈ syms, X ∉ S := by
  rw [add_fst_iff_ne]
  refine ⟨fun hne => ?_, ?_⟩
  · by_contra hold
    push Not at hold
    exact hne (h.insertAll_eq_self hold)
  · rintro ⟨X, hX, hnew⟩ heq
    have hmem : X ∈ (S.add syms).2 := mem_insertAll.mpr (.inl hX)
    exact hnew (heq ▸ hmem)

theorem mem_add {X : Symbol} : X ∈ (S.add syms).2 ↔ X ∈ S ∨ X ∈ syms :=
  mem_insertAll.trans or_comm

/-- A union changes a set if one of the members that are taken over is new. -/
theorem Ordered.addAll_fst_iff (h : S.Ordered) :
    (S.addAll T withEpsilon).1 = true ↔ ∃ X ∈ T, (withEpsilon = true ∨ X ≠ .epsilon) ∧ X ∉ S := by
  rw [addAll, h.add_fst_iff]
  simp only [mem_offered, Symbol.isEpsilon_iff, and_assoc, ne_eq]

theorem mem_addAll {X : Symbol} :
    X ∈ (S.addAll T withEpsilon).2 ↔ X ∈ S ∨ X ∈ T ∧ (withEpsilon = true ∨ X ≠ .epsilon) := by
  rw [addAll, mem_add, mem_offered, Symbol.isEpsilon_iff]

/-! ### Comparisons -/

/-- It is enough to find all members of the first set in the second one, if the sizes agree. -/
theorem Ordered.equals_iff (hS : S.Ordered) (hT : T.Ordered) :
    S.equals T = true ↔ S.toList = T.toList := by
  rw [equals, Bool.and_eq_true, beq_iff_eq, List.all_eq_true]
  refine ⟨?_, ?_⟩
  · rintro ⟨hsize, hmem⟩
    have hsub : S.toList ⊆ T.toList := fun X hX => contains_iff.mp (hmem X hX)
    have hperm : S.toList.Perm T.toList :=
      (List.Nodup.subperm hS.nodup hsub).perm_of_length_le (Nat.le_of_eq hsize.symm)
    exact congrArg toList (eq_of_mem_iff hS hT fun _ => hperm.mem_iff)
  · intro hlist
    refine ⟨congrArg List.length hlist, fun X hX => contains_iff.mpr ?_⟩
    change X ∈ T.toList
    rwa [← hlist]

/-- **Answers.**  Let `S` and `T` be sets that can be built.  The members of `S` are listed in
increasing order, and a symbol is found in `S` if it, or one that compares equal to it, is listed.
An addition puts the symbols in, and is said to change `S` if the list of members is another one
behind it.  A union puts the members of `T` in, without `ϵ` unless it is asked for, and is said to
change `S` if one of those it takes over is new.  `S` equals `T` if the lists are equal, and what the
two have in common is listed in increasing order. -/
theorem answers_exact (hS : S.Built) (hT : T.Built) :
    (S.toList.Pairwise fun X Y => X.code.compare Y.code = .lt) ∧
      (∀ X, (S.contains X = true ↔ X ∈ S.toList) ∧
        (S.contains X = true ↔ ∃ Y ∈ S.toList, X.code.compare Y.code = .eq)) ∧
      (∀ syms, ((S.add syms).1 = true ↔ (S.add syms).2.toList ≠ S.toList) ∧
        ∀ X, X ∈ (S.add syms).2 ↔ X ∈ S ∨ X ∈ syms) ∧
      (∀ withEpsilon,
        ((S.addAll T withEpsilon).1 = true ↔
          ∃ X ∈ T, (withEpsilon = true ∨ X ≠ .epsilon) ∧ X ∉ S) ∧
        ∀ X, X ∈ (S.addAll T withEpsilon).2 ↔
          X ∈ S ∨ X ∈ T ∧ (withEpsilon = true ∨ X ≠ .epsilon)) ∧
      (S.equals T = true ↔ S.toList = T.toList) ∧
      ((S.intersection T).Pairwise fun X Y => X.code.compare Y.code = .lt) ∧
      ∀ X, X ∈ S.intersection T ↔ X ∈ S ∧ X ∈ T := by
  have hlist : S.toList.Pairwise fun X Y => X.code.compare Y.code = .lt :=
    hS.ordered.imp Symbol.compare_code_eq_lt.mpr
  refine ⟨hlist, fun X => ⟨contains_iff, ?_⟩, fun syms => ⟨?_, fun _ => mem_add⟩,
    fun _ => ⟨hS.ordered.addAll_fst_iff, fun _ => mem_addAll⟩, hS.ordered.equals_iff hT.ordered,
    hlist.filter _, fun _ => mem_intersection⟩
  · simp only [Symbol.compare_code_eq_eq, exists_eq_right']
    exact contains_iff
  · refine add_fst_iff_ne.trans (not_congr ⟨congrArg toList, fun h => ?_⟩)
    exact (SymbolSet.mk.injEq ..).mpr h

/-- `{A, a}` takes nothing new over from `{a, ϵ}`, unless `ϵ` is asked for, and nothing from itself;
only `a` is in both sets. -/
theorem letters_answers :
    let S := ofList [.ofChar 'a', .ofChar 'A', .ofChar 'a']
    let T := ofList [.epsilon, .ofChar 'a']
    (S.Built ∧ T.Built) ∧ (S.addAll T false).1 = false ∧ (S.addAll T true).1 = true ∧
      (S.addAll S true).1 = false ∧ S.equals T = false ∧
      .ofChar 'a' ∈ S.intersection T ∧ .epsilon ∉ S.intersection T := by
  intro S T
  have hS : S.Built := .ofList _
  have hT : T.Built := .ofList _
  obtain ⟨-, -, -, hunion, hequals, -, hcommon⟩ := answers_exact hS hT
  obtain ⟨-, -, -, hself, -⟩ := answers_exact hS hS
  refine ⟨⟨hS, hT⟩, Bool.eq_false_iff.mpr fun h => ?_, (hunion true).1.mpr ?_,
    Bool.eq_false_iff.mpr fun h => ?_, Bool.eq_false_iff.mpr fun h => ?_,
    (hcommon _).mpr ⟨by decide, by decide⟩, fun h => ?_⟩
  · obtain ⟨X, hX, hoffered, hnew⟩ := (hunion false).1.mp h
    have hold : ∀ X ∈ T.toList, X ≠ .epsilon → X ∈ S.toList := by decide
    exact hnew (hold X hX (hoffered.resolve_left nofun))
  · exact ⟨.epsilon, by decide, .inl rfl, by decide⟩
  · obtain ⟨X, hX, -, hnew⟩ := (hself true).1.mp h
    exact hnew hX
  · exact absurd (hequals.mp h) (by decide)
  · exact absurd ((hcommon _).mp h).1 (by decide)

end SymbolSet

end Lookahead
