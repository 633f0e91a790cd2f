import Lookahead.Grammar.Draft
import Lookahead.Proofs.Rules

/-!
# Derivations

A derivation step replaces a nonterminal of a sentential form by what one of its rules puts in its
place: the symbols of the right side, and nothing at all where `ϵ` is written.  `Derives` is any
number of steps.  Steps may be taken anywhere in a form, so derivations of neighbouring parts can be
taken together (`Derives.append`).

What one step preserves a derivation preserves, forwards (`Derives.forward`) and backwards
(`Derives.backward`); the completeness of each stage of the analysis is one of these two inductions.

A leftmost derivation replaces the first nonterminal of every form and is recorded as the numbers of
the rules it uses (`Leftmost`).
-/

namespace Lookahead

/-- A sequence of nonterminals and terminals. -/
def Sentential (α : List Symbol) : Prop := ∀ X ∈ α, X.isNonterminal ∨ X.isTerminal

theorem sentential_cons {X : Symbol} {α : List Symbol} :
    Sentential (X :: α) ↔ (X.isNonterminal ∨ X.isTerminal) ∧ Sentential α := List.forall_mem_cons

theorem sentential_singleton {X : Symbol} :
    Sentential [X] ↔ X.isNonterminal ∨ X.isTerminal := List.forall_mem_singleton

/-- What a production puts in place of its nonterminal: its symbols, or nothing if it is written
`ϵ`. -/
def Production.expansion (p : Production) : List Symbol := if p.isEpsilon then [] else p

namespace Production

@[simp] theorem expansion_epsilon : epsilon.expansion = [] := rfl

theorem expansion_of_ne {p : Production} (h : p ≠ epsilon) : p.expansion = p := by
  rw [expansion, if_neg]
  rwa [isEpsilon_iff]

theorem mem_of_mem_expansion {p : Production} {X : Symbol} (h : X ∈ p.expansion) : X ∈ p := by
  unfold expansion at h
  split at h
  · exact absurd h List.not_mem_nil
  · exact h

/-- What a proper production puts in place is a sentential form. -/
theorem Proper.sentential {p : Production} (h : p.Proper) : Sentential p.expansion := by
  intro X hX
  rcases h with rfl | h
  · exact absurd hX List.not_mem_nil
  · exact h X (mem_of_mem_expansion hX)

/-- A sentential form is not written `ϵ`. -/
theorem expansion_of_sentential {α : List Symbol} (h : Sentential α) : expansion α = α := by
  refine expansion_of_ne ?_
  rintro rfl
  simpa [Symbol.isNonterminal, Symbol.isTerminal] using h .epsilon (List.mem_singleton.mpr rfl)

/-- A sequence with a nonterminal or terminal in it stands for itself. -/
theorem expansion_eq_append_cons {p : Production} {u v : List Symbol} {X : Symbol}
    (hX : X.isNonterminal ∨ X.isTerminal) : p.expansion = u ++ X :: v ↔ p = u ++ X :: v := by
  by_cases hp : p = epsilon
  · rw [hp, expansion_epsilon, epsilon]
    refine ⟨fun h => ?_, fun h => ?_⟩
    · simp at h
    · have hε : X ∈ [Symbol.epsilon] := by simp [h]
      obtain rfl := List.mem_singleton.mp hε
      simp [Symbol.isNonterminal, Symbol.isTerminal] at hX
  · rw [expansion_of_ne hp]

end Production

namespace Grammar

variable {g : Grammar}

/-! ### Steps and derivations -/

/-- One step: a nonterminal between `u` and `v` is replaced by one of its rules. -/
inductive Step (g : Grammar) : List Symbol → List Symbol → Prop where
  | expand {r : Rule} (hr : r ∈ g.rules) (u v : List Symbol) :
      Step g (u ++ r.lhs :: v) (u ++ r.rhs.expansion ++ v)

/-- `α ⇒* β`: any number of steps lead from `α` to `β`. -/
inductive Derives (g : Grammar) : List Symbol → List Symbol → Prop where
  | refl (α : List Symbol) : Derives g α α
  | more {α β γ : List Symbol} (h : g.Step α β) (t : Derives g β γ) : Derives g α γ

theorem Step.context {α β : List Symbol} (h : g.Step α β) (u v : List Symbol) :
    g.Step (u ++ α ++ v) (u ++ β ++ v) := by
  obtain ⟨hr, x, y⟩ := h
  have := Step.expand hr (u ++ x) (y ++ v)
  simpa using this

namespace Derives

variable {α β γ : List Symbol}

theorem trans (h₁ : g.Derives α β) (h₂ : g.Derives β γ) : g.Derives α γ := by
  induction h₁ with
  | refl => exact h₂
  | more h _ ih => exact .more h (ih h₂)

/-- What a step leads to from a form with `P` has `P`, and so has what a derivation leads to. -/
theorem forward {P : List Symbol → Prop} (hstep : ∀ β γ, g.Step β γ → P β → P γ)
    (h : g.Derives α γ) (hα : P α) : P γ := by
  induction h with
  | refl => exact hα
  | more h _ ih => exact ih (hstep _ _ h hα)

/-- What leads to a form with `P` by a step has `P`, and so has what leads to one by a
derivation. -/
theorem backward {P : List Symbol → Prop} (hstep : ∀ β γ, g.Step β γ → P γ → P β)
    (h : g.Derives α γ) (hγ : P γ) : P α := by
  induction h with
  | refl => exact hγ
  | more h _ ih => exact hstep _ _ h (ih hγ)

theorem context (h : g.Derives α β) (u v : List Symbol) :
    g.Derives (u ++ α ++ v) (u ++ β ++ v) := by
  induction h with
  | refl => exact .refl _
  | more h _ ih => exact .more (h.context u v) ih

theorem append {α' β' : List Symbol} (h₁ : g.Derives α α') (h₂ : g.Derives β β') :
    g.Derives (α ++ β) (α' ++ β') := by
  have hα : g.Derives (α ++ β) (α' ++ β) := by simpa using h₁.context [] β
  have hβ : g.Derives (α' ++ β) (α' ++ β') := by simpa using h₂.context α' []
  exact hα.trans hβ

/-- A rule as a derivation. -/
theorem rule {r : Rule} (hr : r ∈ g.rules) : g.Derives [r.lhs] r.rhs.expansion := by
  have h : g.Step [r.lhs] r.rhs.expansion := by simpa using Step.expand hr [] []
  exact .more h (.refl _)

/-- A sequence of symbols that derive the empty word derives it as well. -/
theorem nil_of_forall (h : ∀ X ∈ α, g.Derives [X] []) : g.Derives α [] := by
  induction α with
  | nil => exact .refl _
  | cons X rest ih =>
      have hX : g.Derives [X] [] := h X (by simp)
      exact hX.append (ih fun Y hY => h Y (List.mem_cons_of_mem _ hY))

/-- A derivation from a single symbol does nothing, or begins with a rule of it. -/
theorem of_single {A : Symbol} (h : g.Derives [A] β) :
    β = [A] ∨ ∃ r ∈ g.rules, r.lhs = A ∧ g.Derives r.rhs.expansion β := by
  cases h with
  | refl => exact .inl rfl
  | more h t =>
      generalize hform : [A] = form at h
      obtain ⟨hr, u, v⟩ := h
      cases u with
      | nil =>
          obtain ⟨rfl, rfl⟩ := List.cons.inj hform
          exact .inr ⟨_, hr, rfl, by simpa using t⟩
      | cons X u =>
          -- there is nothing before a single symbol
          simp at hform

end Derives

/-! ### Terminals stay -/

/-- A step leaves terminals at the front alone. -/
theorem Step.of_terminals {u α β : List Symbol} (hu : ∀ X ∈ u, X.isTerminal)
    (h : g.Step (u ++ α) β) : ∃ α', β = u ++ α' ∧ g.Step α α' := by
  generalize hform : u ++ α = form at h
  obtain ⟨hr, x, y⟩ := h
  rename_i r
  rcases List.append_eq_append_iff.mp hform with ⟨x', rfl, rfl⟩ | ⟨u', rfl, hu'⟩
  · exact ⟨x' ++ r.rhs.expansion ++ y, by simp, .expand hr x' y⟩
  · cases u' with
    | nil =>
        rw [List.nil_append] at hu'
        subst hu'
        exact ⟨r.rhs.expansion ++ y, by simp, by simpa using Step.expand hr [] y⟩
    | cons X u' =>
        -- the step would replace a terminal
        obtain ⟨rfl, -⟩ := List.cons.inj hu'
        have hX : r.lhs.isTerminal := hu r.lhs (by simp)
        exact absurd (isNonterminal_lhs hr) (Symbol.not_isNonterminal_of_isTerminal hX)

/-- A derivation leaves terminals at the front alone. -/
theorem Derives.of_terminals {u α β : List Symbol} (hu : ∀ X ∈ u, X.isTerminal)
    (h : g.Derives (u ++ α) β) : ∃ α', β = u ++ α' ∧ g.Derives α α' := by
  generalize hform : u ++ α = form at h
  induction h generalizing α with
  | refl => exact ⟨α, hform.symm, .refl _⟩
  | more h _ ih =>
      rw [← hform] at h
      obtain ⟨α', rfl, hα'⟩ := h.of_terminals hu
      obtain ⟨α'', rfl, hα''⟩ := ih rfl
      exact ⟨α'', rfl, .more hα' hα''⟩

/-! ### Leftmost derivations -/

/-- A leftmost derivation from one form to another, as the numbers of its rules. -/
inductive Leftmost (g : Grammar) : List Nat → List Symbol → List Symbol → Prop where
  | refl (α : List Symbol) : Leftmost g [] α α
  | more {r : Rule} {serials : List Nat} {u v γ : List Symbol} (hr : r ∈ g.rules)
      (hu : ∀ X ∈ u, X.isTerminal) (t : Leftmost g serials (u ++ r.rhs.expansion ++ v) γ) :
      Leftmost g (r.serial :: serials) (u ++ r.lhs :: v) γ

theorem Leftmost.derives {serials : List Nat} {α β : List Symbol}
    (h : g.Leftmost serials α β) : g.Derives α β := by
  induction h with
  | refl => exact .refl _
  | more hr _ _ ih => exact .more (.expand hr _ _) ih

end Grammar

/-! ### A grammar with optional parts -/

/-- `S → A B c`, `A → a | ϵ`, `B → b | ϵ`, as a draft. -/
def Draft.optionalParts : Draft :=
  (((Draft.empty (Text.bytes "G")).define (.ofChar 'S')
    [[.ofChar 'A', .ofChar 'B', .ofChar 'c']]).define
    (.ofChar 'A') [[.ofChar 'a'], [.epsilon]]).define (.ofChar 'B') [[.ofChar 'b'], [.epsilon]]

/-- `S → A B c`, `A → a | ϵ`, `B → b | ϵ`. -/
def Grammar.optionalParts : Grammar :=
  ⟨Text.bytes "G", Draft.optionalParts.definitions, Draft.optionalParts.wellFormed⟩

theorem Draft.grammar_optionalParts : Draft.optionalParts.grammar = .ok Grammar.optionalParts := rfl

end Lookahead
