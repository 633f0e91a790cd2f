import Lookahead.Proofs.Select

/-!
# Without conflicts there is one derivation

At every step of a leftmost derivation of a word, the next symbol of the word, or the end marker
where the word ends, is in SELECT of the rule that the step uses (`next_mem_select`).  This holds
whether or not nullable symbols before terminals count as ends, since it only needs that no symbol
is missing.

Two leftmost derivations of one word pass through the same forms.  Where they part, two rules of one
nonterminal share the next symbol, which is not `ϵ`, and that is a conflict.  So a grammar without
conflicts is unambiguous (`unambiguous_of_conflicts_eq_nil`).
-/

namespace Lookahead

namespace Grammar

variable {g : Grammar}

/-! ### Leftmost derivations of words -/

/-- The first nonterminal of a form stands in one place. -/
theorem eq_of_first_nonterminal {u u' v v' : List Symbol} {A A' : Symbol}
    (hu : ∀ X ∈ u, X.isTerminal) (hu' : ∀ X ∈ u', X.isTerminal) (hA : A.isNonterminal)
    (hA' : A'.isNonterminal) (h : u ++ A :: v = u' ++ A' :: v') : u = u' ∧ A = A' ∧ v = v' := by
  induction u generalizing u' with
  | nil =>
      cases u' with
      | nil =>
          obtain ⟨rfl, rfl⟩ := List.cons.inj h
          exact ⟨rfl, rfl, rfl⟩
      | cons X u' =>
          obtain ⟨rfl, -⟩ := List.cons.inj h
          exact absurd hA (Symbol.not_isNonterminal_of_isTerminal (hu' A List.mem_cons_self))
  | cons X u ih =>
      cases u' with
      | nil =>
          obtain ⟨rfl, -⟩ := List.cons.inj h
          exact absurd hA' (Symbol.not_isNonterminal_of_isTerminal (hu X List.mem_cons_self))
      | cons X' u' =>
          obtain ⟨rfl, htail⟩ := List.cons.inj h
          obtain ⟨rfl, rfl, rfl⟩ := ih (fun Y hY => hu Y (List.mem_cons_of_mem _ hY))
            (fun Y hY => hu' Y (List.mem_cons_of_mem _ hY)) htail
          exact ⟨rfl, rfl, rfl⟩

theorem not_terminals_of_lhs {r : Rule} (hr : r ∈ g.rules) {u v : List Symbol} :
    ¬ ∀ X ∈ u ++ r.lhs :: v, X.isTerminal := by
  intro h
  have hX : r.lhs.isTerminal := h r.lhs (by simp)
  exact Symbol.not_isNonterminal_of_isTerminal hX (isNonterminal_lhs hr)

/-- A leftmost derivation of a word does nothing to the word itself. -/
theorem Leftmost.eq_nil_of_terminals {serials : List Nat} {σ w : List Symbol}
    (hσ : ∀ X ∈ σ, X.isTerminal) (h : g.Leftmost serials σ w) : serials = [] := by
  cases h with
  | refl => rfl
  | more hr _ _ => exact absurd hσ (not_terminals_of_lhs hr)

/-- A leftmost derivation of a word begins with a rule of the first nonterminal. -/
theorem Leftmost.of_first_nonterminal {serials : List Nat} {u v w : List Symbol} {A : Symbol}
    (hu : ∀ X ∈ u, X.isTerminal) (hA : A.isNonterminal) (hw : ∀ X ∈ w, X.isTerminal)
    (h : g.Leftmost serials (u ++ A :: v) w) :
    ∃ s ∈ g.rules, s.lhs = A ∧ ∃ rest, serials = s.serial :: rest ∧
      g.Leftmost rest (u ++ s.rhs.expansion ++ v) w := by
  generalize hform : u ++ A :: v = σ at h
  cases h with
  | refl =>
      have hA' : A.isTerminal := hw A (by simp [← hform])
      exact absurd hA (Symbol.not_isNonterminal_of_isTerminal hA')
  | more hr hu' t =>
      obtain ⟨rfl, rfl, rfl⟩ := eq_of_first_nonterminal hu hu' hA (isNonterminal_lhs hr) hform
      exact ⟨_, hr, rfl, _, rfl, t⟩

/-- Every word has at most one leftmost derivation from `start`, as a sequence of rule numbers. -/
def Unambiguous (g : Grammar) (start : Symbol) : Prop :=
  ∀ w : List Symbol, (∀ X ∈ w, X.isTerminal) → ∀ p q : List Nat,
    g.Leftmost p [start] w → g.Leftmost q [start] w → p = q

end Grammar

/-! ### The next symbol chooses the rule -/

namespace Analysis

variable {g : Grammar} {c : Config}

/-- If what stands behind a nonterminal vanishes, the end marker comes behind it. -/
theorem relates_fb_endMarker_of_vanishes {r : Rule} (hr : r ∈ g.rules) {u v : List Symbol}
    (hform : g.Derives [c.start] (u ++ r.lhs :: v)) (hv : g.Derives v []) :
    (ofConfig g c).fb.Relates r.lhs .endMarker := by
  have hlast : g.Derives [c.start] (u ++ [r.lhs]) :=
    hform.trans ((Grammar.Derives.refl u).append ((Grammar.Derives.refl [r.lhs]).append hv))
  exact relates_fb_endMarker_of_ends (Grammar.mem_referenced_of_mem_rules hr)
    (Grammar.reflTransGen_ends_iff_derives.mpr ⟨u, hlast⟩)

/-- If what stands behind a nonterminal derives a form that begins with `t`, then `t` comes behind
it. -/
theorem relates_fb_of_begins {r : Rule} (hr : r ∈ g.rules) {u v : List Symbol} {t : Symbol}
    (hform : g.Derives [c.start] (u ++ r.lhs :: v)) (ht : t.isTerminal) (hv : g.Begins v t) :
    (ofConfig g c).fb.Relates r.lhs t := by
  obtain ⟨γ, hγ⟩ := Grammar.begins_iff_derives.mp hv
  have hbehind : g.Derives [c.start] (u ++ r.lhs :: t :: γ) :=
    hform.trans ((Grammar.Derives.refl u).append ((Grammar.Derives.refl [r.lhs]).append hγ))
  have hadjacent : ⟨r.lhs, t⟩ ∈ g.nullable.adjacent (u ++ r.lhs :: t :: γ) :=
    NullableSet.mem_adjacent.mpr ⟨Grammar.isNonterminal_lhs hr, u, t :: γ, rfl,
      NullableSet.mem_reachable_cons.mpr (.inl rfl)⟩
  exact relates_fb_of_follows ht (Grammar.follows_of_adjacent hbehind hadjacent)

/-- **The next symbol.**  If a form that the start symbol derives is led by `r` to the rest `w` of a
word, then SELECT of `r` holds the first symbol of `w`, or the end marker if `w` is empty. -/
theorem next_mem_select {r : Rule} (hr : r ∈ g.rules) {u v w : List Symbol}
    (hw : ∀ X ∈ w, X.isTerminal) (hform : g.Derives [c.start] (u ++ r.lhs :: v))
    (hrest : g.Derives (r.rhs.expansion ++ v) w) :
    w.headD .endMarker ∈ (ofConfig g c).select.of r := by
  cases w with
  | nil =>
      obtain ⟨hρ, hv⟩ := NullableSet.vanishes_append.mp (NullableSet.vanishes_iff_derives.mpr hrest)
      have hfb := relates_fb_endMarker_of_vanishes hr hform (NullableSet.vanishes_iff_derives.mp hv)
      exact (mem_select hr).mpr (.inr (.inr
        ⟨NullableSet.vanishes_iff_derives.mp hρ, hfb, .inr rfl⟩))
  | cons t w =>
      have ht : t.isTerminal := hw t List.mem_cons_self
      obtain ⟨Y, hY, hYt⟩ := Grammar.begins_iff_derives.mpr ⟨w, hrest⟩
      refine (mem_select hr).mpr (.inr ?_)
      -- either the right side brings `t` to the front, or it vanishes and what is behind does
      rcases NullableSet.mem_reachable_append.mp hY with hY | ⟨hρ, hY⟩
      · exact .inl ⟨ht, Grammar.begins_iff_derives.mp ⟨Y, hY, hYt⟩⟩
      · have hfb := relates_fb_of_begins hr hform ht ⟨Y, hY, hYt⟩
        exact .inr ⟨NullableSet.vanishes_iff_derives.mp hρ, hfb, .inl ht⟩

/-- Without conflicts, rules of one nonterminal that lead to the same word are equal. -/
theorem eq_of_derives_word (hconf : (ofConfig g c).conflicts = []) {r s : Rule}
    (hr : r ∈ g.rules) (hs : s ∈ g.rules) (hlhs : s.lhs = r.lhs) {u v w : List Symbol}
    (hu : ∀ X ∈ u, X.isTerminal) (hw : ∀ X ∈ w, X.isTerminal)
    (hform : g.Derives [c.start] (u ++ r.lhs :: v))
    (hrw : g.Derives (u ++ r.rhs.expansion ++ v) w)
    (hsw : g.Derives (u ++ s.rhs.expansion ++ v) w) : r = s := by
  rw [List.append_assoc] at hrw hsw
  obtain ⟨rest, rfl, hr'⟩ := hrw.of_terminals hu
  obtain ⟨rest', hsplit, hs'⟩ := hsw.of_terminals hu
  obtain rfl := List.append_cancel_left hsplit
  have hrest : ∀ X ∈ rest, X.isTerminal := fun X hX => hw X (List.mem_append_right u hX)
  by_contra hne
  have hnext := SelectSets.apart_of_conflicts_eq_nil hconf hr hs hlhs hne _
    (next_mem_select hr hrest hform hr') (next_mem_select hs hrest (hlhs ▸ hform) hs')
  -- the next symbol is a terminal or the end marker
  cases rest with
  | nil => cases hnext
  | cons t rest => exact Symbol.ne_epsilon_of_isTerminal (hrest t List.mem_cons_self) hnext

/-- From any form that the start symbol derives, leftmost derivations of a word are equal. -/
theorem leftmost_eq (hconf : (ofConfig g c).conflicts = []) {p q : List Nat} {σ w : List Symbol}
    (hw : ∀ X ∈ w, X.isTerminal) (hσ : g.Derives [c.start] σ) (hp : g.Leftmost p σ w)
    (hq : g.Leftmost q σ w) : p = q := by
  -- on the first derivation; the second one has to go along, step by step
  induction hp generalizing q with
  | refl => exact (hq.eq_nil_of_terminals hw).symm
  | more hr hu t ih =>
      obtain ⟨s, hs, hlhs, rest, rfl, hrest⟩ :=
        hq.of_first_nonterminal hu (Grammar.isNonterminal_lhs hr) hw
      obtain rfl := eq_of_derives_word hconf hr hs hlhs hu hw hσ t.derives hrest.derives
      rw [ih hw (hσ.trans (.more (.expand hr _ _) (.refl _))) hrest]

/-- **Determinism.**  If the analysis of a grammar finds no conflicts, every word has at most one
leftmost derivation from the start symbol. -/
theorem unambiguous_of_conflicts_eq_nil {settings : List Setting} {a : Analysis}
    (hc : Config.ofSettings settings = .ok c) (ha : g.analyze settings = .ok a)
    (hconf : a.conflicts = []) : g.Unambiguous c.start := by
  obtain rfl := Grammar.eq_ofConfig_of_analyze hc ha
  intro w hw p q hp hq
  exact leftmost_eq hconf hw (.refl _) hp hq

/-- Two optional parts: `c` alone is derived by leaving out both, and in no other way. -/
theorem optionalParts_leftmost_unique :
    Grammar.optionalParts.analyze [.skipCheck true] =
        .ok (ofConfig Grammar.optionalParts ⟨.conventionalStart, false, true⟩) ∧
      (ofConfig Grammar.optionalParts ⟨.conventionalStart, false, true⟩).conflicts = [] ∧
      Grammar.optionalParts.Leftmost [1, 3, 5] [.conventionalStart] [.ofChar 'c'] ∧
      ∀ q, Grammar.optionalParts.Leftmost q [.conventionalStart] [.ofChar 'c'] → q = [1, 3, 5] := by
  have ha : Grammar.optionalParts.analyze [.skipCheck true] =
      .ok (ofConfig Grammar.optionalParts ⟨.conventionalStart, false, true⟩) :=
    Grammar.analyze_of_skipCheck rfl rfl rfl
  have hconf : (ofConfig Grammar.optionalParts ⟨.conventionalStart, false, true⟩).conflicts = [] :=
    by decide +kernel
  have hword : Grammar.optionalParts.Leftmost [1, 3, 5] [.conventionalStart] [.ofChar 'c'] := by
    have hS : ⟨1, .conventionalStart, [.ofChar 'A', .ofChar 'B', .ofChar 'c']⟩ ∈
        Grammar.optionalParts.rules := by decide
    have hA : ⟨3, .ofChar 'A', [.epsilon]⟩ ∈ Grammar.optionalParts.rules := by decide
    have hB : ⟨5, .ofChar 'B', [.epsilon]⟩ ∈ Grammar.optionalParts.rules := by decide
    have hno : ∀ X ∈ ([] : List Symbol), X.isTerminal := List.forall_mem_nil _
    exact .more (u := []) (v := []) hS hno <|
      .more (u := []) (v := [.ofChar 'B', .ofChar 'c']) hA hno <|
      .more (u := []) (v := [.ofChar 'c']) hB hno <| .refl _
  have hunique := unambiguous_of_conflicts_eq_nil rfl ha hconf
  exact ⟨ha, hconf, hword, fun q hq => hunique [.ofChar 'c'] (by decide) q [1, 3, 5] hq hword⟩

end Analysis

end Lookahead
