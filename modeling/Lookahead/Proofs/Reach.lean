import Lookahead.Proofs.Neighbours

/-!
# What derivations bring to the front, to the end and next to each other

Over the nullable nonterminals of a grammar, the seed relations say what one rule does.  Followed
along any number of rules they say what derivations do.

* `begins_iff_derives`: a form derives some `X γ` exactly when a scan of it from the left reaches a
  symbol from which `BDW` leads to `X`.
* `ends_iff_derives`: a form derives some `γ X` exactly when a scan of it from the right reaches a
  symbol to which `DEO` leads from `X`.
* `follows_iff_derives`: a nonterminal `D` derives some `α X Y β` with a nonterminal `X` exactly
  when `X` ends some `B`, a rule puts `C` behind `B`, and `C` begins with `Y`.

The first two are carried backwards along a derivation.  The third is an invariant that holds of
every adjacent pair of every form that a single symbol derives, and is carried forwards.
-/

namespace Lookahead

namespace Grammar

variable {g : Grammar}

/-- Short for the nullable nonterminals of a grammar. -/
abbrev nullable (g : Grammar) : NullableSet := NullableSet.ofGrammar g

/-! ### To the front -/

/-- A scan of `α` from the left reaches a symbol from which `BDW` leads to `X`. -/
def Begins (g : Grammar) : List Symbol → Symbol → Prop :=
  g.nullable.Scans (g.BeginsDirectly g.nullable)

theorem derives_of_mem_reachable {α : List Symbol} {X : Symbol} (h : X ∈ g.nullable.reachable α) :
    ∃ γ, g.Derives α (X :: γ) := by
  obtain ⟨u, v, rfl, hu⟩ := NullableSet.mem_reachable.mp h
  exact ⟨v, (NullableSet.vanishes_iff_derives.mp hu).append (.refl (X :: v))⟩

theorem derives_of_beginsDirectly {A X : Symbol} (h : g.BeginsDirectly g.nullable A X) :
    ∃ γ, g.Derives [A] (X :: γ) := by
  obtain ⟨r, hr, rfl, hX⟩ := h
  obtain ⟨γ, hγ⟩ := derives_of_mem_reachable hX
  exact ⟨γ, (Derives.rule hr).trans hγ⟩

/-- Along `BDW` the left side derives forms that begin with the right side. -/
theorem derives_of_reflTransGen_begins {A X : Symbol}
    (h : Relation.ReflTransGen (g.BeginsDirectly g.nullable) A X) :
    ∃ γ, g.Derives [A] (X :: γ) := by
  induction h with
  | refl => exact ⟨[], .refl _⟩
  | tail _ h ih =>
      obtain ⟨γ, hγ⟩ := ih
      obtain ⟨δ, hδ⟩ := derives_of_beginsDirectly h
      exact ⟨δ ++ γ, hγ.trans (hδ.append (.refl γ))⟩

theorem Begins.of_step {α β : List Symbol} {X : Symbol} (hstep : g.Step α β)
    (h : g.Begins β X) : g.Begins α X := by
  obtain ⟨hr, u, v⟩ := hstep
  exact NullableSet.Scans.of_expand (NullableSet.contains_lhs hr)
    (fun Y hY => ⟨_, hr, rfl, hY⟩) h

theorem begins_cons (X : Symbol) (γ : List Symbol) : g.Begins (X :: γ) X :=
  ⟨X, NullableSet.mem_reachable.mpr ⟨[], γ, rfl, NullableSet.vanishes_nil⟩, .refl⟩

/-- **To the front.** -/
theorem begins_iff_derives {α : List Symbol} {X : Symbol} :
    g.Begins α X ↔ ∃ γ, g.Derives α (X :: γ) := by
  refine ⟨fun ⟨Y, hY, hX⟩ => ?_, fun ⟨γ, hγ⟩ => ?_⟩
  · obtain ⟨γ, hγ⟩ := derives_of_mem_reachable hY
    obtain ⟨δ, hδ⟩ := derives_of_reflTransGen_begins hX
    exact ⟨δ ++ γ, hγ.trans (hδ.append (.refl γ))⟩
  · exact hγ.backward (P := fun α => g.Begins α X) (fun _ _ hstep h => h.of_step hstep)
      (begins_cons X γ)

/-- What FIRST of a form should hold: the terminals with which what it derives can begin, and `ϵ` if
it derives the empty word. -/
def IsFirst (g : Grammar) (α : List Symbol) (X : Symbol) : Prop :=
  (X = .epsilon ∧ g.Derives α []) ∨ (X.isTerminal ∧ ∃ γ, g.Derives α (X :: γ))

theorem isFirst_epsilon {α : List Symbol} : g.IsFirst α .epsilon ↔ g.Derives α [] := by
  simp [IsFirst, Symbol.isTerminal]

theorem isFirst_of_isTerminal {α : List Symbol} {t : Symbol} (ht : t.isTerminal) :
    g.IsFirst α t ↔ ∃ γ, g.Derives α (t :: γ) := by
  simp [IsFirst, ht, Symbol.ne_epsilon_of_isTerminal ht]

/-! ### To the end -/

/-- A scan of `α` from the right reaches a symbol to which `DEO` leads from `X`. -/
def Ends (g : Grammar) (α : List Symbol) : Symbol → Prop :=
  g.nullable.Scans (Function.swap (g.EndsDirectly g.nullable)) α.reverse

theorem derives_of_mem_reachable_reverse {α : List Symbol} {X : Symbol}
    (h : X ∈ g.nullable.reachable α.reverse) : ∃ γ, g.Derives α (γ ++ [X]) := by
  obtain ⟨u, v, rfl, hv⟩ := NullableSet.mem_reachable_reverse.mp h
  have hX : g.Derives (X :: v) [X] :=
    (Derives.refl [X]).append (NullableSet.vanishes_iff_derives.mp hv)
  exact ⟨u, (Derives.refl u).append hX⟩

theorem derives_of_endsDirectly {X A : Symbol} (h : g.EndsDirectly g.nullable X A) :
    ∃ γ, g.Derives [A] (γ ++ [X]) := by
  obtain ⟨r, hr, rfl, hX⟩ := h
  obtain ⟨γ, hγ⟩ := derives_of_mem_reachable_reverse hX
  exact ⟨γ, (Derives.rule hr).trans hγ⟩

/-- Along `DEO` the right side derives forms that end with the left side. -/
theorem derives_of_reflTransGen_ends {X A : Symbol}
    (h : Relation.ReflTransGen (g.EndsDirectly g.nullable) X A) :
    ∃ γ, g.Derives [A] (γ ++ [X]) := by
  induction h with
  | refl => exact ⟨[], .refl _⟩
  | tail _ h ih =>
      obtain ⟨γ, hγ⟩ := ih
      obtain ⟨δ, hδ⟩ := derives_of_endsDirectly h
      refine ⟨δ ++ γ, hδ.trans ?_⟩
      rw [List.append_assoc]
      exact (Derives.refl δ).append hγ

theorem Ends.of_step {α β : List Symbol} {X : Symbol} (hstep : g.Step α β) (h : g.Ends β X) :
    g.Ends α X := by
  obtain ⟨hr, u, v⟩ := hstep
  rename_i r
  -- read from the right, the expansion stands between `v` and `u`
  have h' : g.nullable.Scans (Function.swap (g.EndsDirectly g.nullable))
      (v.reverse ++ r.rhs.expansion.reverse ++ u.reverse) X := by
    simpa [Ends] using h
  have hA := NullableSet.Scans.of_expand (A := r.lhs)
    (fun hρ => NullableSet.contains_lhs hr (NullableSet.vanishes_reverse.mp hρ))
    (fun Y hY => ⟨r, hr, rfl, hY⟩) h'
  simpa [Ends] using hA

theorem ends_append (γ : List Symbol) (X : Symbol) : g.Ends (γ ++ [X]) X :=
  ⟨X, NullableSet.mem_reachable_reverse.mpr ⟨γ, [], rfl, NullableSet.vanishes_nil⟩, .refl⟩

/-- **To the end.** -/
theorem ends_iff_derives {α : List Symbol} {X : Symbol} :
    g.Ends α X ↔ ∃ γ, g.Derives α (γ ++ [X]) := by
  refine ⟨fun ⟨Y, hY, hX⟩ => ?_, fun ⟨γ, hγ⟩ => ?_⟩
  · obtain ⟨γ, hγ⟩ := derives_of_mem_reachable_reverse hY
    obtain ⟨δ, hδ⟩ := derives_of_reflTransGen_ends (Relation.reflTransGen_swap.mp hX)
    refine ⟨γ ++ δ, hγ.trans ?_⟩
    rw [List.append_assoc]
    exact (Derives.refl γ).append hδ
  · exact hγ.backward (P := fun α => g.Ends α X) (fun _ _ hstep h => h.of_step hstep)
      (ends_append γ X)

/-- A single symbol derives forms that end with what `DEO` leads from. -/
theorem reflTransGen_ends_iff_derives {X A : Symbol} :
    Relation.ReflTransGen (g.EndsDirectly g.nullable) X A ↔ ∃ γ, g.Derives [A] (γ ++ [X]) := by
  refine ⟨derives_of_reflTransGen_ends, fun h => ?_⟩
  obtain ⟨Y, hY, hX⟩ := ends_iff_derives.mpr h
  obtain rfl : Y = A := by simpa using NullableSet.mem_of_mem_reachable hY
  exact Relation.reflTransGen_swap.mp hX

/-! ### Next to each other -/

/-- `X` ends some `B`, a rule puts some `C` behind `B`, and `C` begins with `Y`. -/
def Follows (g : Grammar) (X Y : Symbol) : Prop :=
  ∃ B C, Relation.ReflTransGen (g.EndsDirectly g.nullable) X B ∧
    g.FollowsDirectly g.nullable B C ∧ Relation.ReflTransGen (g.BeginsDirectly g.nullable) C Y

theorem Follows.of_endsDirectly {X B Y : Symbol} (h : g.EndsDirectly g.nullable X B)
    (hB : g.Follows B Y) : g.Follows X Y := by
  obtain ⟨B', C, hB', hC, hY⟩ := hB
  exact ⟨B', C, .head h hB', hC, hY⟩

theorem Follows.beginsDirectly {X C Y : Symbol} (hC : g.Follows X C)
    (h : g.BeginsDirectly g.nullable C Y) : g.Follows X Y := by
  obtain ⟨B, C', hB, hC', hC⟩ := hC
  exact ⟨B, C', hB, hC', .tail hC h⟩

/-- What is adjacent after a step follows, if what is adjacent before it does. -/
theorem follows_of_step {σ τ : List Symbol} (hstep : g.Step σ τ)
    (hσ : ∀ X Y, ⟨X, Y⟩ ∈ g.nullable.adjacent σ → g.Follows X Y) :
    ∀ X Y, ⟨X, Y⟩ ∈ g.nullable.adjacent τ → g.Follows X Y := by
  obtain ⟨hr, u, v⟩ := hstep
  rename_i r
  intro X Y h
  rw [List.append_assoc, NullableSet.mem_adjacent_append, NullableSet.mem_adjacent_append] at h
  rcases h with ⟨hX, a, b, rfl, hY⟩ | ⟨hX, a, b, hρ, hY⟩ | h
  · -- `X` stands before the expansion, so it was adjacent to `Y` or to the left side
    rw [← List.append_assoc] at hY
    have hbefore : ∀ {Z}, Z ∈ g.nullable.reachable (b ++ r.lhs :: v) → g.Follows X Z :=
      fun hZ => hσ X _ (NullableSet.mem_adjacent.mpr ⟨hX, a, b ++ r.lhs :: v, by simp, hZ⟩)
    rcases NullableSet.mem_reachable_of_expand (NullableSet.contains_lhs hr) hY with hY | ⟨hA, hY⟩
    · exact hbefore hY
    · exact (hbefore hA).beginsDirectly ⟨r, hr, rfl, hY⟩
  · -- `X` stands in the expansion, and so does `Y`, or `X` ends the left side
    rcases NullableSet.mem_reachable_append.mp hY with hY | ⟨hb, hY⟩
    · exact ⟨X, Y, .refl, ⟨r, hr, NullableSet.mem_adjacent.mpr ⟨hX, a, b, hρ, hY⟩⟩, .refl⟩
    · have hends : g.EndsDirectly g.nullable X r.lhs :=
        ⟨r, hr, rfl, NullableSet.mem_reachable_reverse.mpr ⟨a, b, hρ, hb⟩⟩
      refine .of_endsDirectly hends (hσ r.lhs Y ?_)
      exact NullableSet.mem_adjacent.mpr ⟨isNonterminal_lhs hr, u, v, rfl, hY⟩
  · refine hσ X Y ?_
    rw [← List.singleton_append, NullableSet.mem_adjacent_append,
      NullableSet.mem_adjacent_append]
    exact .inr (.inr h)

/-- In a form that a single symbol derives, what is adjacent follows. -/
theorem follows_of_adjacent {D X Y : Symbol} {σ : List Symbol} (h : g.Derives [D] σ)
    (hXY : ⟨X, Y⟩ ∈ g.nullable.adjacent σ) : g.Follows X Y := by
  refine h.forward (P := fun σ => ∀ X Y, ⟨X, Y⟩ ∈ g.nullable.adjacent σ → g.Follows X Y)
    (fun _ _ hstep hσ => follows_of_step hstep hσ) (fun X Y h => ?_) X Y hXY
  -- a single symbol has no neighbours
  simp [NullableSet.adjacent_cons] at h

/-- **Next to each other.**  A form that a defined nonterminal derives has `Y` right behind the
nonterminal `X` exactly when `Y` follows `X`. -/
theorem follows_iff_derives {X Y : Symbol} (hX : X.isNonterminal) :
    g.Follows X Y ↔
      ∃ D ∈ g.nonterminals, ∃ α β, g.Derives [D] (α ++ X :: Y :: β) := by
  refine ⟨?_, ?_⟩
  · rintro ⟨B, C, hB, ⟨r, hr, hC⟩, hY⟩
    obtain ⟨-, u, v, hrhs, hv⟩ := NullableSet.mem_adjacent.mp hC
    obtain ⟨γ, hγ⟩ := derives_of_reflTransGen_ends hB
    obtain ⟨δ, hδ⟩ := derives_of_mem_reachable hv
    obtain ⟨η, hη⟩ := derives_of_reflTransGen_begins hY
    refine ⟨r.lhs, mem_nonterminals_of_mem_rules hr, u ++ γ, η ++ δ, ?_⟩
    have hrule : g.Derives [r.lhs] (u ++ ([B] ++ v)) := by simpa [hrhs] using Derives.rule hr
    have hbehind : g.Derives v (Y :: η ++ δ) := hδ.trans (hη.append (.refl δ))
    have hform := hrule.trans ((Derives.refl u).append (hγ.append hbehind))
    simpa using hform
  · rintro ⟨D, -, α, β, h⟩
    refine follows_of_adjacent h (NullableSet.mem_adjacent.mpr ⟨hX, α, Y :: β, rfl, ?_⟩)
    exact NullableSet.mem_reachable_cons.mpr (.inl rfl)

end Grammar

end Lookahead
