import Lookahead.Predict.SetTable
import Lookahead.Proofs.SymbolSet

/-!
# Reading tables of symbol sets

What adding symbols to a table does to the sets in it: the set of one symbol gets them, all others
stay (`mem_getD_insert`), and a symbol that has a set already keeps its place (`keys_insert`).
What holds of the empty set and survives additions holds of all sets of a table (`Each.insert`), and
a bound on each set bounds the table (`Each.size_le`).  A table of ordered sets is left as it is
where what is added is there already (`Each.insert_eq_self`).
-/

namespace Lookahead.SetTable

variable {t : SetTable} {A B X : Symbol} {syms : List Symbol}

/-! ### Sets -/

theorem lookup_insertRow (rows : List (Symbol × SymbolSet)) :
    (insertRow A syms rows).lookup B =
      if B = A then some (((rows.lookup A).getD SymbolSet.empty).insertAll syms)
      else rows.lookup B := by
  induction rows with
  | nil =>
      by_cases h : B = A
      · subst h; simp [insertRow, SymbolSet.ofList]
      · simp [insertRow, List.lookup_cons, beq_false_of_ne h, h]
  | cons row rest ih =>
      obtain ⟨C, S⟩ := row
      unfold insertRow
      by_cases hC : C = A
      · subst hC
        by_cases h : B = C
        · subst h; simp
        · simp [List.lookup_cons, beq_false_of_ne h, h]
      · have hC' : (A == C) = false := beq_false_of_ne fun e => hC e.symm
        by_cases h : B = C
        · subst h; simp [hC]
        · simp [List.lookup_cons, hC, hC', beq_false_of_ne h, ih]

theorem getD_insert :
    (t.insert A syms).getD B = if B = A then (t.getD A).insertAll syms else t.getD B := by
  rw [getD, get?, insert, lookup_insertRow]
  split <;> rfl

/-- Adding to the set of one symbol leaves the others as they are. -/
theorem mem_getD_insert :
    X ∈ (t.insert A syms).getD B ↔ X ∈ t.getD B ∨ B = A ∧ X ∈ syms := by
  rw [getD_insert]
  split
  · rename_i h
    subst h
    rw [SymbolSet.mem_insertAll, or_comm]
    simp
  · rename_i h
    simp [h]

@[simp] theorem getD_ofKeys (keys : List Symbol) : (ofKeys keys).getD A = SymbolSet.empty := by
  rw [getD, get?, ofKeys]
  induction keys with
  | nil => rfl
  | cons B rest ih =>
      simp only [List.map_cons, List.lookup_cons]
      split
      · rfl
      · exact ih

/-! ### Keys -/

theorem mem_keys : A ∈ t.keys ↔ (t.get? A).isSome := by
  rw [keys, get?]
  induction t.rows with
  | nil => simp
  | cons row rest ih =>
      obtain ⟨B, S⟩ := row
      by_cases h : A = B
      · subst h; simp
      · simp [List.lookup_cons, beq_false_of_ne h, h, ← ih]

theorem keys_ofKeys (keys : List Symbol) : (ofKeys keys).keys = keys := by
  simp [ofKeys, SetTable.keys, Function.comp_def]

/-- A symbol that has a set keeps its place. -/
theorem keys_insert (h : A ∈ t.keys) : (t.insert A syms).keys = t.keys := by
  obtain ⟨rows⟩ := t
  simp only [keys, insert] at h ⊢
  induction rows with
  | nil => exact absurd h List.not_mem_nil
  | cons row rest ih =>
      obtain ⟨B, S⟩ := row
      unfold insertRow
      split
      · rfl
      · rename_i hne
        have hrest : A ∈ rest.map Prod.fst := by
          rcases List.mem_cons.mp h with e | h
          · exact absurd e.symm hne
          · exact h
        rw [List.map_cons, ih hrest, List.map_cons]

/-! ### Growth -/

/-- Adding to a set that is there grows the table. -/
theorem size_insert (h : A ∈ t.keys) :
    t.size ≤ (t.insert A syms).size ∧ ((t.insert A syms).size ≤ t.size → t.insert A syms = t) := by
  obtain ⟨rows⟩ := t
  simp only [keys, insert, size, mk.injEq] at h ⊢
  induction rows with
  | nil => exact absurd h List.not_mem_nil
  | cons row rest ih =>
      obtain ⟨B, S⟩ := row
      -- one set grows and the others stay, so the sums differ by what that set gains
      have hgrow := SymbolSet.grows_insertAll syms
      unfold insertRow
      by_cases hB : B = A
      · simp only [hB, if_true, List.foldr_cons]
        refine ⟨Nat.add_le_add_right (hgrow.le S trivial) _, fun hle => ?_⟩
        rw [hgrow.fixed S trivial (Nat.le_of_add_le_add_right hle)]
      · have hrest : A ∈ rest.map Prod.fst := by
          rcases List.mem_cons.mp h with e | h
          · exact absurd e.symm hB
          · exact h
        simp only [hB, if_false, List.foldr_cons]
        refine ⟨Nat.add_le_add_left (ih hrest).1 _, fun hle => ?_⟩
        rw [(ih hrest).2 (Nat.le_of_add_le_add_left hle)]

/-! ### What all sets of a table have in common -/

/-- A property of sets that holds of all sets of a table. -/
def Each (P : SymbolSet → Prop) (t : SetTable) : Prop := ∀ row ∈ t.rows, P row.2

theorem each_ofKeys {P : SymbolSet → Prop} (keys : List Symbol) (h : P SymbolSet.empty) :
    (ofKeys keys).Each P := by
  intro row hrow
  obtain ⟨A, -, rfl⟩ := List.mem_map.mp hrow
  exact h

theorem Each.insert {P : SymbolSet → Prop} (ht : t.Each P) (hempty : P SymbolSet.empty)
    (hP : ∀ S, P S → P (S.insertAll syms)) : (t.insert A syms).Each P := by
  obtain ⟨rows⟩ := t
  simp only [Each, SetTable.insert] at ht ⊢
  induction rows with
  | nil =>
      intro row hrow
      obtain rfl := List.mem_singleton.mp hrow
      exact hP _ hempty
  | cons row rest ih =>
      obtain ⟨B, S⟩ := row
      have hrest : ∀ row ∈ rest, P row.2 := fun row h => ht row (List.mem_cons_of_mem _ h)
      unfold insertRow
      split
      · intro row hrow
        rcases List.mem_cons.mp hrow with rfl | hrow
        · exact hP S (ht (B, S) (by simp))
        · exact hrest row hrow
      · intro row hrow
        rcases List.mem_cons.mp hrow with rfl | hrow
        · exact ht (B, S) (by simp)
        · exact ih hrest row hrow

theorem Each.getD {P : SymbolSet → Prop} (ht : t.Each P) (hempty : P SymbolSet.empty) :
    P (t.getD A) := by
  rw [SetTable.getD, get?]
  cases h : t.rows.lookup A with
  | none => exact hempty
  | some S =>
      obtain ⟨l₁, l₂, hrows, -⟩ := List.lookup_eq_some_iff.mp h
      exact ht (A, S) (by simp [hrows])

/-- Adding to a set what it holds changes nothing. -/
theorem Each.insert_eq_self (ht : t.Each SymbolSet.Ordered) (h : A ∈ t.keys)
    (hsyms : ∀ X ∈ syms, X ∈ t.getD A) : t.insert A syms = t := by
  obtain ⟨rows⟩ := t
  simp only [Each, keys, SetTable.insert, SetTable.getD, get?, mk.injEq] at ht h hsyms ⊢
  induction rows with
  | nil => exact absurd h List.not_mem_nil
  | cons row rest ih =>
      obtain ⟨B, S⟩ := row
      obtain ⟨hS, hrest⟩ := List.forall_mem_cons.mp ht
      unfold insertRow
      by_cases hB : B = A
      · subst hB
        rw [List.lookup_cons_self, Option.getD_some] at hsyms
        rw [if_pos rfl, hS.insertAll_eq_self hsyms]
      · have hkey : A ∈ rest.map Prod.fst := (List.mem_cons.mp h).resolve_left (Ne.symm hB)
        rw [List.lookup_cons, beq_false_of_ne (Ne.symm hB)] at hsyms
        rw [if_neg hB, ih hrest hkey hsyms]

/-- A table has no more symbols than its keys have room for. -/
theorem Each.size_le {bound : Nat} (ht : t.Each fun S => S.size ≤ bound) :
    t.size ≤ bound * t.keys.length := by
  obtain ⟨rows⟩ := t
  simp only [Each, size, keys, List.length_map] at ht ⊢
  induction rows with
  | nil => simp
  | cons row rest ih =>
      have hrow : row.2.size ≤ bound := ht row (by simp)
      have hrest := ih fun row h => ht row (List.mem_cons_of_mem _ h)
      rw [List.foldr_cons, List.length_cons, Nat.mul_succ]
      omega

end Lookahead.SetTable
