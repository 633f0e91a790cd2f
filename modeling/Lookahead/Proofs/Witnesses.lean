import Lookahead.Proofs.Nullable

/-!
# Witnesses of nullability

A nullable nonterminal is kept with the right side that showed it to be nullable.  A pass uses what
it has found itself, so from one rule to the next more is known, and what a witness rests on is what
the list held when the witness was put at its end.  `Replayable` says this of a list of witnesses:
it grew at its end, each time by the two sides of a rule whose right side derives the empty word as
soon as what stands before it does.

In such a list no witness leads back to a nonterminal behind it.  So it is enough to go through it
once, from its end to its front, and to replace each nonterminal by its witness (`replay`): what is
replaced does not come back, and nothing is left (`Replayable.replay_eq_nil`).

**Witnesses** (`witnesses_in_order`).  The nullable nonterminals are listed once each, every one has
a rule of its own as a witness that rests on those before it, and replaying the witnesses derives
the empty word.
-/

namespace Lookahead

namespace NullableSet

variable {g : Grammar} {ns : NullableSet} {ws : List (Symbol × Production)} {α : List Symbol}

/-! ### The order of discovery -/

/-- Each witness is taken from a rule, and the symbols that the rule puts in place have witnesses
before it. -/
inductive Replayable (g : Grammar) : List (Symbol × Production) → Prop where
  | nil : Replayable g []
  | concat {ws : List (Symbol × Production)} {r : Rule} (h : Replayable g ws) (hr : r ∈ g.rules)
      (hrests : ∀ X ∈ r.rhs.expansion, X ∈ ws.map Prod.fst) :
      Replayable g (ws ++ [(r.lhs, r.rhs)])

theorem Replayable.visit {r : Rule} (h : Replayable g ns.witnesses) (hr : r ∈ g.rules) :
    Replayable g (ns.visit r).witnesses := by
  unfold NullableSet.visit
  split
  · rename_i hfound
    rw [Bool.and_eq_true, derivesEmpty_iff] at hfound
    exact h.concat hr fun X hX => List.contains_iff_mem.mp (hfound.2 X hX)
  · exact h

theorem Replayable.pass (h : Replayable g ns.witnesses) :
    Replayable g (ns.pass g.rules).witnesses :=
  List.foldlRecOn (motive := fun ns : NullableSet => Replayable g ns.witnesses) g.rules
    NullableSet.visit h fun _ h _ hr => Replayable.visit h hr

theorem replayable_ofGrammar (g : Grammar) : Replayable g (ofGrammar g).witnesses :=
  saturate_induction (P := fun ns : NullableSet => Replayable g ns.witnesses)
    (fun _ h => h.pass) _ .nil

/-- What stands at a place of the list is a rule, and it rests on what stands before it. -/
theorem Replayable.rests (h : Replayable g ws) {before after : List (Symbol × Production)}
    {A : Symbol} {p : Production} (hsplit : ws = before ++ (A, p) :: after) :
    (∃ r ∈ g.rules, r.lhs = A ∧ r.rhs = p) ∧ ∀ X ∈ p.expansion, X ∈ before.map Prod.fst := by
  induction h generalizing after with
  | nil => simp at hsplit
  | @concat ws r _ hr hrests ih =>
      rcases List.eq_nil_or_concat after with rfl | ⟨later, w, rfl⟩
      · -- the witness is the one that came last
        obtain ⟨rfl, hlast⟩ := List.append_inj' hsplit rfl
        obtain ⟨rfl, rfl⟩ := Prod.mk.inj (List.singleton_inj.mp hlast)
        exact ⟨⟨r, hr, rfl, rfl⟩, hrests⟩
      · have hsplit' : ws ++ [(r.lhs, r.rhs)] = (before ++ (A, p) :: later) ++ [w] := by
          simpa using hsplit
        exact ih (List.append_inj' hsplit' rfl).1

/-! ### Replaying the witnesses -/

/-- Replaces a nonterminal by its witness, wherever it stands. -/
def expandAll (w : Symbol × Production) (α : List Symbol) : List Symbol :=
  α.flatMap fun X => if X = w.1 then w.2.expansion else [X]

/-- Replaces nonterminals by their witnesses, each in its turn, the one that was found last
first. -/
def replay (ws : List (Symbol × Production)) (α : List Symbol) : List Symbol := ws.foldr expandAll α

theorem replay_concat (ws : List (Symbol × Production)) (w : Symbol × Production)
    (α : List Symbol) : replay (ws ++ [w]) α = replay ws (expandAll w α) := by
  rw [replay, List.foldr_append]
  rfl

theorem mem_expandAll {w : Symbol × Production} {X : Symbol} :
    X ∈ expandAll w α ↔ X ∈ α ∧ X ≠ w.1 ∨ w.1 ∈ α ∧ X ∈ w.2.expansion := by
  rw [expandAll, List.mem_flatMap]
  refine ⟨?_, ?_⟩
  · rintro ⟨Y, hY, hX⟩
    split at hX
    · rename_i h
      exact .inr ⟨h ▸ hY, hX⟩
    · rename_i h
      obtain rfl := List.mem_singleton.mp hX
      exact .inl ⟨hY, h⟩
  · rintro (⟨hX, hne⟩ | ⟨hw, hX⟩)
    · exact ⟨X, hX, by simp [hne]⟩
    · exact ⟨w.1, hw, by simpa using hX⟩

/-- Replacing a nonterminal by a right side of it is a derivation. -/
theorem derives_expandAll {r : Rule} (hr : r ∈ g.rules) (α : List Symbol) :
    g.Derives α (expandAll (r.lhs, r.rhs) α) := by
  induction α with
  | nil => exact .refl _
  | cons X rest ih =>
      have hX : g.Derives [X] (if X = r.lhs then r.rhs.expansion else [X]) := by
        split
        · rename_i h
          exact h ▸ .rule hr
        · exact .refl _
      exact hX.append ih

/-- A replay is a derivation. -/
theorem Replayable.derives_replay (h : Replayable g ws) (α : List Symbol) :
    g.Derives α (replay ws α) := by
  induction h generalizing α with
  | nil => exact .refl _
  | concat _ hr _ ih =>
      rw [replay_concat]
      exact (derives_expandAll hr α).trans (ih _)

/-- **One replay is enough.**  Of nonterminals that have witnesses it leaves nothing. -/
theorem Replayable.replay_eq_nil (h : Replayable g ws) (hα : ∀ X ∈ α, X ∈ ws.map Prod.fst) :
    replay ws α = [] := by
  induction h generalizing α with
  | nil => exact List.eq_nil_iff_forall_not_mem.mpr fun X hX => absurd (hα X hX) List.not_mem_nil
  | @concat ws r _ _ hrests ih =>
      rw [replay_concat]
      refine ih fun X hX => ?_
      rcases mem_expandAll.mp hX with ⟨hX, hne⟩ | ⟨-, hX⟩
      · -- a nonterminal other than the one replaced has its witness before
        have hmem := hα X hX
        rw [List.map_append, List.mem_append] at hmem
        exact hmem.resolve_right fun hlast => hne (by simpa using hlast)
      · exact hrests X hX

/-! ### The nullable nonterminals of a grammar -/

theorem mem_nonterminals_iff_derives {A : Symbol} :
    A ∈ (ofGrammar g).nonterminals ↔ A.isNonterminal ∧ g.Derives [A] [] := by
  have hiff : (ofGrammar g).contains A = true ↔ A ∈ (ofGrammar g).nonterminals :=
    List.contains_iff_mem
  rw [← hiff, contains_iff_derives]
  exact ⟨fun h => ⟨onlyNonterminals_ofGrammar g A (contains_iff_derives.mpr h), h⟩, And.right⟩

/-- A nonterminal that is listed once is found with the production beside it. -/
theorem witness?_of_split (hnodup : ns.nonterminals.Nodup)
    {before after : List (Symbol × Production)} {A : Symbol} {p : Production}
    (hsplit : ns.witnesses = before ++ (A, p) :: after) : ns.witness? A = some p := by
  refine List.lookup_eq_some_iff.mpr ⟨before, after, hsplit, fun w hw => ?_⟩
  rw [nonterminals, hsplit, List.map_append, List.map_cons] at hnodup
  have hne : w.1 ≠ A :=
    (List.nodup_append.mp hnodup).2.2 w.1 (List.mem_map_of_mem hw) A List.mem_cons_self
  simpa using hne.symm

/-- **Witnesses.**  The nullable nonterminals are listed once each.  The witness of each is a right
side of its own, written `ϵ` or made of nonterminals that are listed before it (the empty one has
none); and replaying the witnesses derives the empty word from it. -/
theorem witnesses_in_order (g : Grammar) :
    (ofGrammar g).nonterminals.Nodup ∧
      (∀ A, A ∈ (ofGrammar g).nonterminals ↔ A.isNonterminal ∧ g.Derives [A] []) ∧
      (∀ before A after, (ofGrammar g).nonterminals = before ++ A :: after →
        ∃ p, (ofGrammar g).witness? A = some p ∧ (∃ r ∈ g.rules, r.lhs = A ∧ r.rhs = p) ∧
          (p = .epsilon ∨ ∀ X ∈ p, X.isNonterminal ∧ X ∈ before)) ∧
      ∀ A ∈ (ofGrammar g).nonterminals,
        g.Derives [A] (replay (ofGrammar g).witnesses [A]) ∧
          replay (ofGrammar g).witnesses [A] = [] := by
  have hreplay := replayable_ofGrammar g
  have hnodup := (within_ofGrammar g).1
  refine ⟨hnodup, fun A => mem_nonterminals_iff_derives, fun before A after hlist => ?_,
    fun A hA => ⟨hreplay.derives_replay [A], hreplay.replay_eq_nil fun X hX => ?_⟩⟩
  · obtain ⟨front, rest, hsplit, rfl, hrest⟩ := List.map_eq_append_iff.mp hlist
    obtain ⟨⟨B, p⟩, later, rfl, rfl, rfl⟩ := List.map_eq_cons_iff.mp hrest
    obtain ⟨hrule, hrests⟩ := hreplay.rests hsplit
    refine ⟨p, witness?_of_split hnodup hsplit, hrule, or_iff_not_imp_left.mpr fun hne X hX => ?_⟩
    rw [Production.expansion_of_ne hne] at hrests
    have hmem : X ∈ (ofGrammar g).nonterminals := by
      rw [nonterminals, hsplit, List.map_append]
      exact List.mem_append_left _ (hrests X hX)
    exact ⟨(mem_nonterminals_iff_derives.mp hmem).1, hrests X hX⟩
  · obtain rfl := List.mem_singleton.mp hX
    exact hA

end NullableSet

/-- `S → AB | S`, `A → B | a`, `B → S | ϵ`, as a draft: the three lead to each other. -/
def Draft.mutual : Draft :=
  (((Draft.empty (Text.bytes "G")).define (.ofChar 'S') [Symbol.word "AB", Symbol.word "S"]).define
    (.ofChar 'A') [Symbol.word "B", Symbol.word "a"]).define
    (.ofChar 'B') [Symbol.word "S", [.epsilon]]

/-- `S → AB | S`, `A → B | a`, `B → S | ϵ`. -/
def Grammar.mutual : Grammar :=
  ⟨Text.bytes "G", Draft.mutual.definitions, Draft.mutual.wellFormed⟩

/-- `S` is found last, by the rule that leads to the other two and not by the one that leads back to
`S` itself. -/
theorem NullableSet.mutual_witness_in_order :
    (ofGrammar .mutual).nonterminals = [.ofChar 'B', .ofChar 'A'] ++ .ofChar 'S' :: [] ∧
      ∃ p, (ofGrammar .mutual).witness? (.ofChar 'S') = some p ∧
        (∃ r ∈ Grammar.mutual.rules, r.lhs = .ofChar 'S' ∧ r.rhs = p) ∧
        (p = .epsilon ∨ ∀ X ∈ p, X.isNonterminal ∧ X ∈ [.ofChar 'B', .ofChar 'A']) := by
  have hlist : (ofGrammar .mutual).nonterminals =
      [.ofChar 'B', .ofChar 'A'] ++ .ofChar 'S' :: [] := by
    decide +kernel
  exact ⟨hlist, (witnesses_in_order .mutual).2.2.1 _ _ _ hlist⟩

end Lookahead
