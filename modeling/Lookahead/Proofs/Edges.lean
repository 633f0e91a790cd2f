import Lookahead.Proofs.Follow

/-!
# `BW` and `EO` mean: can stand first, can stand last

`BW` is the closure of a relation that is read off by scans from the left, `EO` that of a relation
which is read off by scans from the right and holds its pairs the other way round.  Beside what the
scans find, `DEO` holds a pair of every nullable nonterminal with itself, and each closure is
reflexive over a universe of its own.  All of these extra pairs relate a symbol to itself, so
between different symbols the two relations say the same thing about the two ends of a form.

**Edges** (`edges_iff_derives`).  `A BW X` holds for an `X` other than `A` when `A` derives a form
with `X` in front, and `X EO A` when it derives a form with `X` at the end.
-/

namespace Lookahead

namespace Grammar

variable {g : Grammar} {A X : Symbol}

/-! ### Sentential forms -/

theorem Step.sentential {α β : List Symbol} (h : g.Step α β) (hα : Sentential α) :
    Sentential β := by
  obtain ⟨hr, u, v⟩ := h
  obtain ⟨hu, hv⟩ := List.forall_mem_append.mp hα
  exact List.forall_mem_append.mpr
    ⟨List.forall_mem_append.mpr ⟨hu, (proper_rhs hr).sentential⟩, (List.forall_mem_cons.mp hv).2⟩

/-- What a nonterminal derives is a sentential form. -/
theorem Derives.sentential {β : List Symbol} (hA : A.isNonterminal) (h : g.Derives [A] β) :
    Sentential β :=
  h.forward (fun _ _ hstep hα => hstep.sentential hα) (sentential_singleton.mpr (.inl hA))

/-! ### The two edges -/

/-- A single symbol derives forms that begin with what `BDW` leads to. -/
theorem reflTransGen_begins_iff_derives :
    Relation.ReflTransGen (g.BeginsDirectly g.nullable) A X ↔ ∃ γ, g.Derives [A] (X :: γ) := by
  refine ⟨derives_of_reflTransGen_begins, fun h => ?_⟩
  obtain ⟨Y, hY, hX⟩ := begins_iff_derives.mpr h
  obtain rfl : Y = A := by simpa using NullableSet.mem_of_mem_reachable hY
  exact hX

/-- Between different symbols `BW` is what `BDW` leads to. -/
theorem relates_beginsWith_of_ne {ns : NullableSet} (hne : A ≠ X) :
    (g.beginsWith (g.beginsDirectlyWith ns)).Relates A X ↔
      Relation.ReflTransGen (g.BeginsDirectly ns) A X := by
  rw [beginsWith, Relation.mem_close_iff_reflTransGen fun e => absurd e hne,
    relates_beginsDirectlyWith_eq]

/-- Between different symbols `EO` is what `DEO` leads to. -/
theorem relates_ends_of_ne {ns : NullableSet} (hne : X ≠ A) :
    (g.ends (g.directlyEnds ns false)).Relates X A ↔
      Relation.ReflTransGen (g.EndsDirectly ns) X A :=
  ⟨reflTransGen_of_relates_ends, relates_ends_of_reflTransGen fun e => absurd e hne⟩

/-- **Edges.**  A nonterminal is related by `BW` to the symbols that can stand first in what it
derives, and by `EO` to those that can stand last. -/
theorem edges_iff_derives (g : Grammar) (hA : A.isNonterminal) (hne : X ≠ A) :
    ((g.beginsWith (g.beginsDirectlyWith g.nullable)).contains A X = true ↔
        ∃ γ, Sentential γ ∧ g.Derives [A] (X :: γ)) ∧
      ((g.ends (g.directlyEnds g.nullable false)).contains X A = true ↔
        ∃ γ, Sentential γ ∧ g.Derives [A] (γ ++ [X])) := by
  rw [Relation.contains_iff, Relation.contains_iff]
  refine ⟨?_, ?_⟩
  · refine ((relates_beginsWith_of_ne hne.symm).trans reflTransGen_begins_iff_derives).trans ?_
    refine exists_congr fun γ => (and_iff_right_of_imp fun h => ?_).symm
    exact (List.forall_mem_cons.mp (h.sentential hA)).2
  · refine ((relates_ends_of_ne hne).trans reflTransGen_ends_iff_derives).trans ?_
    refine exists_congr fun γ => (and_iff_right_of_imp fun h => ?_).symm
    exact (List.forall_mem_append.mp (h.sentential hA)).1

/-- Two optional parts: what `S` derives can begin with `b`, behind an `A` that vanishes, but it
cannot end with `b`. -/
theorem optionalParts_edges :
    Symbol.ofChar 'b' ≠ .ofChar 'S' ∧
      (∃ γ, Sentential γ ∧ optionalParts.Derives [.ofChar 'S'] (.ofChar 'b' :: γ)) ∧
      ¬ ∃ γ, Sentential γ ∧ optionalParts.Derives [.ofChar 'S'] (γ ++ [.ofChar 'b']) := by
  have hne : Symbol.ofChar 'b' ≠ .ofChar 'S' := by decide
  obtain ⟨hfirst, hlast⟩ := edges_iff_derives (A := .ofChar 'S') optionalParts rfl hne
  refine ⟨hne, hfirst.mp (by decide +kernel), fun h => ?_⟩
  have hcontains := hlast.mpr h
  revert hcontains
  decide +kernel

end Grammar

end Lookahead
