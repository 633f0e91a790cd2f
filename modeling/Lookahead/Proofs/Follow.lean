import Lookahead.Proofs.Analysis

/-!
# FOLLOW means: comes right behind

`FB` joins `EO`, `FDB` and `BW`.  Between a nonterminal and a terminal this is `Follows`, provided
each closure has the reflexive pairs it needs; both universes do, since a symbol that is next to
another one occurs in a rule.  The end marker comes behind the nonterminals that end the start
symbol.

Every nonterminal that follows from the rules is followed in `FB` whether or not nullable symbols
before terminals count as ends (`relates_fb_of_follows`, `relates_fb_endMarker_of_ends`); the
converse needs that they do not.

**FOLLOW** (`follow_iff_derives`).  `A FB t` holds when a defined nonterminal derives some form with
`t` right behind `A`, `A FB ←` when the start symbol derives some form with `A` at its end, and the
FOLLOW sets of the nullable nonterminals hold just that.
-/

namespace Lookahead

namespace Grammar

variable {g : Grammar} {ns : NullableSet}

/-! ### The closures, reflexive where they have to be -/

theorem mem_endUniverse {X : Symbol} :
    X ∈ g.endUniverse ↔ X ∈ g.occurrences ∧ (X.isNonterminal ∨ X.isTerminal) := by
  rw [endUniverse, List.mem_append, List.mem_append, List.mem_filter, mem_referenced,
    mem_terminals, Bool.not_eq_true', ← Bool.not_eq_true, defines_iff]
  refine ⟨?_, ?_⟩
  · rintro ((h | ⟨⟨hX, hkind⟩, -⟩) | ⟨hX, hkind⟩)
    · exact ⟨mem_occurrences_of_mem_nonterminals h, .inl (isNonterminal_of_mem_nonterminals h)⟩
    · exact ⟨hX, .inl hkind⟩
    · exact ⟨hX, .inr hkind⟩
  · rintro ⟨hX, hkind | hkind⟩
    · by_cases h : X ∈ g.nonterminals
      · exact .inl (.inl h)
      · exact .inl (.inr ⟨⟨hX, hkind⟩, h⟩)
    · exact .inr ⟨hX, hkind⟩

theorem not_isEpsilon_of_kind {X : Symbol} (h : X.isNonterminal ∨ X.isTerminal) :
    ¬ X.isEpsilon := by
  cases X <;> simp_all [Symbol.isNonterminal, Symbol.isTerminal, Symbol.isEpsilon]

/-- What ends a symbol along the rules ends it in `EO`. -/
theorem relates_ends_of_reflTransGen {adjacentEnds : Bool} {X A : Symbol}
    (hX : X = A → X ∈ g.endUniverse) (h : Relation.ReflTransGen (g.EndsDirectly ns) X A) :
    (g.ends (g.directlyEnds ns adjacentEnds)).Relates X A := by
  -- the closure is reflexive on the universe only
  have hrefl : X = A → X ∈ g.endUniverse ∧ ¬ X.isEpsilon :=
    fun e => ⟨hX e, not_isEpsilon_of_kind (mem_endUniverse.mp (hX e)).2⟩
  rw [ends, Relation.mem_close_iff_reflTransGen hrefl]
  exact Relation.ReflTransGen.mono (fun _ _ h => relates_directlyEnds.mpr (.inl h)) _ _ h

theorem reflTransGen_of_relates_directlyEnds {X A : Symbol}
    (h : (g.directlyEnds ns false).Relates X A) :
    Relation.ReflTransGen (g.EndsDirectly ns) X A := by
  rw [relates_directlyEnds] at h
  rcases h with h | h | h
  · exact .single h
  · rw [h.1]
  · exact absurd h.1 Bool.false_ne_true

/-- Unless nullable symbols before terminals count as ends, `EO` has nothing else. -/
theorem reflTransGen_of_relates_ends {X A : Symbol}
    (h : (g.ends (g.directlyEnds ns false)).Relates X A) :
    Relation.ReflTransGen (g.EndsDirectly ns) X A := by
  rw [ends, Relation.mem_close] at h
  rcases h with h | h
  · induction h with
    | single h => exact reflTransGen_of_relates_directlyEnds h
    | tail _ h ih => exact ih.trans (reflTransGen_of_relates_directlyEnds h)
  · rw [h.1]

/-- To a terminal that occurs, `BW` is what `BDW` leads to. -/
theorem relates_beginsWith {C t : Symbol} (ht : t.isTerminal) (hC : C = t → t ∈ g.occurrences) :
    (g.beginsWith (g.beginsDirectlyWith ns)).Relates C t ↔
      Relation.ReflTransGen (g.BeginsDirectly ns) C t := by
  have hrefl : C = t →
      C ∈ (g.beginsDirectlyWith ns).lefts ++ g.terminals ∧ ¬ C.isEpsilon := by
    rintro rfl
    exact ⟨List.mem_append_right _ (mem_terminals.mpr ⟨hC rfl, ht⟩),
      not_isEpsilon_of_kind (.inr ht)⟩
  rw [beginsWith, Relation.mem_close_iff_reflTransGen hrefl, relates_beginsDirectlyWith_eq]

theorem FollowsDirectly.kind {X Y : Symbol} (h : g.FollowsDirectly ns X Y) :
    X.isNonterminal ∧ X ∈ g.occurrences ∧ (Y.isNonterminal ∨ Y.isTerminal) ∧
      Y ∈ g.occurrences := by
  obtain ⟨r, hr, h⟩ := h
  obtain ⟨hX, u, v, hrhs, hv⟩ := NullableSet.mem_adjacent.mp h
  have hXmem : X ∈ r.rhs.expansion := by simp [hrhs]
  have hYmem : Y ∈ r.rhs.expansion := by simp [hrhs, NullableSet.mem_of_mem_reachable hv]
  exact ⟨hX, mem_occurrences_of_mem_rhs hr (Production.mem_of_mem_expansion hXmem),
    (proper_rhs hr).sentential Y hYmem,
    mem_occurrences_of_mem_rhs hr (Production.mem_of_mem_expansion hYmem)⟩

/-- Nothing begins with the end marker. -/
theorem not_relates_beginsWith_endMarker {C : Symbol} :
    ¬ (g.beginsWith (g.beginsDirectlyWith ns)).Relates C .endMarker := by
  intro h
  rw [beginsWith, Relation.mem_close, relates_beginsDirectlyWith_eq] at h
  rcases h with h | ⟨rfl, h, -⟩
  · obtain ⟨B, -, hB⟩ := Relation.TransGen.tail'_iff.mp h
    simpa [Symbol.isNonterminal, Symbol.isTerminal] using hB.kind.2.1
  · rcases List.mem_append.mp h with h | h
    · obtain ⟨p, hp, hleft⟩ := List.mem_map.mp (List.mem_eraseDups.mp h)
      have hB := (relates_beginsDirectlyWith (A := p.left) (X := p.right)).mp hp
      rw [hleft] at hB
      cases isNonterminal_of_mem_nonterminals hB.kind.1
    · cases (mem_terminals.mp h).2

end Grammar

/-! ### `FB` -/

namespace Analysis

variable {g : Grammar} {c : Config}

/-- A pair of `FB` is joined from `EO`, `FDB` and `BW`, or puts the end marker behind what ends the
start symbol. -/
theorem relates_fb {X Y : Symbol} :
    (ofConfig g c).fb.Relates X Y ↔
      (Y = .endMarker ∧ X.isNonterminal ∧
        (g.ends (g.directlyEnds g.nullable c.adjacentEnds)).Relates X c.start) ∨
      ∃ B C, (g.ends (g.directlyEnds g.nullable c.adjacentEnds)).Relates X B ∧
        (g.followedDirectlyBy g.nullable).Relates B C ∧
        (g.beginsWith (g.beginsDirectlyWith g.nullable)).Relates C Y := by
  have hfb : (ofConfig g c).fb =
      (g.ends (g.directlyEnds g.nullable c.adjacentEnds)).followedBy
        (g.followedDirectlyBy g.nullable) (g.beginsWith (g.beginsDirectlyWith g.nullable))
        c.start := rfl
  rw [hfb, Relation.Relates, Relation.followedBy, Relation.mem_insertAll,
    Relation.mem_compose_three]
  refine or_congr ?_ Iff.rfl
  simp only [Relation.lastOf, List.mem_map, List.mem_filter, decide_eq_true_eq, Pair.mk.injEq]
  refine ⟨?_, ?_⟩
  · rintro ⟨⟨X', S⟩, ⟨hmem, rfl, hX⟩, rfl, rfl⟩
    exact ⟨rfl, hX, hmem⟩
  · rintro ⟨rfl, hX, hmem⟩
    exact ⟨⟨X, c.start⟩, ⟨hmem, rfl, hX⟩, rfl, rfl⟩

/-- What follows along the rules follows in `FB`. -/
theorem relates_fb_of_follows {X t : Symbol} (ht : t.isTerminal) (h : g.Follows X t) :
    (ofConfig g c).fb.Relates X t := by
  obtain ⟨B, C, hXB, hBC, hCt⟩ := h
  obtain ⟨hB, hBocc, -, hCocc⟩ := hBC.kind
  refine relates_fb.mpr (.inr ⟨B, C, ?_, Grammar.relates_followedDirectlyBy.mpr hBC, ?_⟩)
  · refine Grammar.relates_ends_of_reflTransGen ?_ hXB
    rintro rfl
    exact Grammar.mem_endUniverse.mpr ⟨hBocc, .inl hB⟩
  · exact (Grammar.relates_beginsWith ht fun e => e ▸ hCocc).mpr hCt

/-- Unless nullable symbols before terminals count as ends, nothing else does. -/
theorem follows_of_relates_fb (hadj : c.adjacentEnds = false) {X t : Symbol} (ht : t.isTerminal)
    (h : (ofConfig g c).fb.Relates X t) : g.Follows X t := by
  rcases relates_fb.mp h with ⟨rfl, -⟩ | ⟨B, C, hXB, hBC, hCt⟩
  · exact absurd rfl (Symbol.ne_endMarker_of_isTerminal ht)
  · rw [hadj] at hXB
    rw [Grammar.relates_followedDirectlyBy] at hBC
    refine ⟨B, C, Grammar.reflTransGen_of_relates_ends hXB, hBC, ?_⟩
    exact (Grammar.relates_beginsWith ht fun e => e ▸ hBC.kind.2.2.2).mp hCt

/-- The end marker comes behind what ends the start symbol, and behind nothing else. -/
theorem relates_fb_endMarker {X : Symbol} :
    (ofConfig g c).fb.Relates X .endMarker ↔
      X.isNonterminal ∧
        (g.ends (g.directlyEnds g.nullable c.adjacentEnds)).Relates X c.start := by
  rw [relates_fb, or_iff_left]
  · exact ⟨fun h => h.2, fun h => ⟨rfl, h⟩⟩
  · rintro ⟨B, C, -, -, hC⟩
    exact Grammar.not_relates_beginsWith_endMarker hC

/-- The end marker comes behind an occurring nonterminal that ends the start symbol. -/
theorem relates_fb_endMarker_of_ends {A : Symbol} (hA : A ∈ g.referenced)
    (h : Relation.ReflTransGen (g.EndsDirectly g.nullable) A c.start) :
    (ofConfig g c).fb.Relates A .endMarker := by
  obtain ⟨hocc, hnon⟩ := Grammar.mem_referenced.mp hA
  have huniv : A ∈ g.endUniverse := Grammar.mem_endUniverse.mpr ⟨hocc, .inl hnon⟩
  exact relates_fb_endMarker.mpr ⟨hnon, Grammar.relates_ends_of_reflTransGen (fun _ => huniv) h⟩

/-- Unless nullable symbols before terminals count as ends, it comes behind nothing else. -/
theorem ends_of_relates_fb_endMarker (hadj : c.adjacentEnds = false) {A : Symbol}
    (h : (ofConfig g c).fb.Relates A .endMarker) :
    Relation.ReflTransGen (g.EndsDirectly g.nullable) A c.start := by
  have hends := (relates_fb_endMarker.mp h).2
  rw [hadj] at hends
  exact Grammar.reflTransGen_of_relates_ends hends

end Analysis

/-! ### FOLLOW sets -/

namespace FollowSets

variable {g : Grammar} {ns : NullableSet} {fb : Relation}

theorem keys_visit (t : SetTable) (p : Pair) : (visit t p).keys = t.keys := by
  unfold visit
  split
  · rename_i h
    rw [Bool.and_eq_true] at h
    exact SetTable.keys_insert (List.contains_iff_mem.mp h.1)
  · rfl

theorem mem_getD_visit {t : SetTable} {p : Pair} {A X : Symbol} :
    X ∈ (visit t p).getD A ↔
      X ∈ t.getD A ∨ p = ⟨A, X⟩ ∧ A ∈ t.keys ∧ (X.isTerminal ∨ X.isEndMarker) := by
  obtain ⟨B, Y⟩ := p
  unfold visit
  split
  · rename_i h
    rw [Bool.and_eq_true, Bool.or_eq_true, List.contains_iff_mem] at h
    rw [SetTable.mem_getD_insert, List.mem_singleton, Pair.mk.injEq]
    refine or_congr Iff.rfl ⟨?_, ?_⟩
    · rintro ⟨rfl, rfl⟩
      exact ⟨⟨rfl, rfl⟩, h⟩
    · rintro ⟨⟨rfl, rfl⟩, -⟩
      exact ⟨rfl, rfl⟩
  · rename_i h
    rw [Bool.and_eq_true, Bool.or_eq_true, List.contains_iff_mem] at h
    refine ⟨.inl, ?_⟩
    rintro (hX | ⟨he, hkey⟩)
    · exact hX
    · obtain ⟨rfl, rfl⟩ := Pair.mk.inj he
      exact absurd hkey h

theorem keys_foldl_visit (ps : List Pair) (t : SetTable) : (ps.foldl visit t).keys = t.keys :=
  List.foldlRecOn ps visit (motive := fun s => s.keys = t.keys) rfl
    fun s hs p _ => (keys_visit s p).trans hs

theorem mem_getD_foldl_visit {ps : List Pair} {t : SetTable} {A X : Symbol} :
    X ∈ (ps.foldl visit t).getD A ↔
      X ∈ t.getD A ∨ ⟨A, X⟩ ∈ ps ∧ A ∈ t.keys ∧ (X.isTerminal ∨ X.isEndMarker) := by
  induction ps generalizing t with
  | nil => simp
  | cons p rest ih =>
      rw [List.foldl_cons, ih, mem_getD_visit, keys_visit, List.mem_cons, or_assoc,
        ← or_and_right, eq_comm]

/-- There is a FOLLOW set for the nullable nonterminals that occur. -/
theorem isSome_of? {A : Symbol} :
    ((ofGrammar g ns fb).of? A).isSome ↔ A ∈ g.referenced ∧ ns.contains A = true := by
  rw [of?, ← SetTable.mem_keys, ofGrammar, keys_foldl_visit, SetTable.keys_ofKeys, List.mem_filter]

/-- A FOLLOW set holds the terminals and the end marker that `FB` gives. -/
theorem mem_of? {A X : Symbol} {S : SymbolSet} (h : (ofGrammar g ns fb).of? A = some S) :
    X ∈ S ↔ fb.Relates A X ∧ (X.isTerminal ∨ X = .endMarker) := by
  have hkey : A ∈ (SetTable.ofKeys (g.referenced.filter ns.contains)).keys := by
    rw [SetTable.keys_ofKeys, List.mem_filter]
    exact isSome_of?.mp (Option.isSome_of_eq_some h)
  have hS : S = (ofGrammar g ns fb).table.getD A := by
    rw [SetTable.getD, show (ofGrammar g ns fb).table.get? A = some S from h, Option.getD_some]
  rw [hS, ofGrammar, mem_getD_foldl_visit, SetTable.getD_ofKeys, Symbol.isEndMarker_iff,
    or_iff_right (SymbolSet.not_mem_empty X)]
  exact and_congr_right fun _ => and_iff_right hkey

end FollowSets

/-! ### What FOLLOW should hold -/

namespace Grammar

variable {g : Grammar} {start A X : Symbol}

/-- What FOLLOW of `A` should hold: the terminals that follow `A`, and the end marker if `A` ends
the start symbol. -/
def Behind (g : Grammar) (start A X : Symbol) : Prop :=
  (X.isTerminal ∧ g.Follows A X) ∨
    (X = .endMarker ∧ Relation.ReflTransGen (g.EndsDirectly g.nullable) A start)

/-- `t` can come right behind `A`: a defined nonterminal derives a form in which it does. -/
def ComesBehind (g : Grammar) (A t : Symbol) : Prop :=
  ∃ D, g.defines D = true ∧ ∃ α β, g.Derives [D] (α ++ A :: t :: β)

/-- `A` can stand last in what `start` derives. -/
def StandsLast (g : Grammar) (start A : Symbol) : Prop :=
  ∃ α, g.Derives [start] (α ++ [A])

theorem Behind.kind (h : g.Behind start A X) : X.isTerminal ∨ X = .endMarker := by
  rcases h with ⟨hX, -⟩ | ⟨hX, -⟩
  · exact .inl hX
  · exact .inr hX

theorem Behind.ne_epsilon (h : g.Behind start A X) : X ≠ .epsilon := by
  rcases h.kind with hX | rfl
  · exact Symbol.ne_epsilon_of_isTerminal hX
  · exact Symbol.noConfusion

theorem Behind.of_endsDirectly {B : Symbol} (h : g.EndsDirectly g.nullable A B)
    (hB : g.Behind start B X) : g.Behind start A X := by
  rcases hB with ⟨hX, hB⟩ | ⟨hX, hB⟩
  · exact .inl ⟨hX, .of_endsDirectly h hB⟩
  · exact .inr ⟨hX, .head h hB⟩

/-- What FOLLOW should hold, by derivation. -/
theorem behind_iff_derives (hA : A.isNonterminal) :
    g.Behind start A X ↔
      X.isTerminal ∧ g.ComesBehind A X ∨ X = .endMarker ∧ g.StandsLast start A := by
  refine or_congr (and_congr_right fun _ => ?_)
    (and_congr_right fun _ => reflTransGen_ends_iff_derives)
  simp only [follows_iff_derives hA, ComesBehind, defines_iff]

theorem behind_terminal (hA : A.isNonterminal) {t : Symbol} (ht : t.isTerminal) :
    g.Behind start A t ↔ g.ComesBehind A t := by
  simp [behind_iff_derives hA, ht, Symbol.ne_endMarker_of_isTerminal ht]

theorem behind_endMarker (hA : A.isNonterminal) :
    g.Behind start A .endMarker ↔ g.StandsLast start A := by
  simp [behind_iff_derives hA, Symbol.isTerminal]

end Grammar

namespace Analysis

variable {g : Grammar} {c : Config} {A X : Symbol}

/-- **`FB`** puts behind an occurring nonterminal what should come behind it. -/
theorem relates_fb_iff_behind (hadj : c.adjacentEnds = false) (hA : A ∈ g.referenced) :
    (ofConfig g c).fb.Relates A X ∧ (X.isTerminal ∨ X = .endMarker) ↔ g.Behind c.start A X := by
  refine ⟨?_, ?_⟩
  · rintro ⟨h, hX | rfl⟩
    · exact .inl ⟨hX, follows_of_relates_fb hadj hX h⟩
    · exact .inr ⟨rfl, ends_of_relates_fb_endMarker hadj h⟩
  · rintro (⟨hX, h⟩ | ⟨rfl, h⟩)
    · exact ⟨relates_fb_of_follows hX h, .inl hX⟩
    · exact ⟨relates_fb_endMarker_of_ends hA h, .inr rfl⟩

/-- The nonterminals with a FOLLOW set are the occurring ones that derive the empty word. -/
theorem isSome_follow :
    ((ofConfig g c).follow.of? A).isSome ↔ A ∈ g.referenced ∧ g.Derives [A] [] := by
  rw [← NullableSet.contains_iff_derives]
  exact FollowSets.isSome_of?

/-- A FOLLOW set holds what it should. -/
theorem mem_follow (hadj : c.adjacentEnds = false) {S : SymbolSet}
    (hS : (ofConfig g c).follow.of? A = some S) : X ∈ S ↔ g.Behind c.start A X := by
  have hA : A ∈ g.referenced := (isSome_follow.mp (Option.isSome_of_eq_some hS)).1
  rw [← relates_fb_iff_behind hadj hA]
  exact FollowSets.mem_of? hS

/-- **FOLLOW.**  In every analysis under which nullable symbols before terminals do not count as
ends, `FB` puts behind an occurring nonterminal the terminals that can come right behind it, and the
end marker if it can stand last.  The nonterminals with a FOLLOW set are the occurring ones that
derive the empty word, and their sets hold just that. -/
theorem follow_iff_derives {settings : List Setting} {a : Analysis}
    (hc : Config.ofSettings settings = .ok c) (hadj : c.adjacentEnds = false)
    (ha : g.analyze settings = .ok a) :
    (∀ A ∈ g.referenced,
      (∀ t : Symbol, t.isTerminal → (⟨A, t⟩ ∈ a.fb ↔ g.ComesBehind A t)) ∧
        (⟨A, .endMarker⟩ ∈ a.fb ↔ g.StandsLast c.start A)) ∧
      (∀ A, (a.follow.of? A).isSome ↔ A ∈ g.referenced ∧ g.Derives [A] []) ∧
      ∀ A S, a.follow.of? A = some S → ∀ X,
        (X ∈ S ↔ X.isTerminal ∧ g.ComesBehind A X ∨ X = .endMarker ∧ g.StandsLast c.start A) := by
  obtain rfl := Grammar.eq_ofConfig_of_analyze hc ha
  refine ⟨fun A hA => ⟨fun t ht => ?_, ?_⟩, fun A => isSome_follow, fun A S hS X => ?_⟩
  · have hnon := (Grammar.mem_referenced.mp hA).2
    rw [← Grammar.behind_terminal hnon ht, ← relates_fb_iff_behind hadj hA]
    exact (and_iff_left (.inl ht)).symm
  · have hnon := (Grammar.mem_referenced.mp hA).2
    rw [← Grammar.behind_endMarker hnon, ← relates_fb_iff_behind hadj hA]
    exact (and_iff_left (.inr rfl)).symm
  · have hA : A ∈ g.referenced := (isSome_follow.mp (Option.isSome_of_eq_some hS)).1
    rw [mem_follow hadj hS, Grammar.behind_iff_derives (Grammar.mem_referenced.mp hA).2]

/-- Two optional parts: `c` can come right behind `A`, across a `B` that vanishes. -/
theorem optionalParts_comesBehind :
    Grammar.optionalParts.analyze [.skipCheck true] =
        .ok (ofConfig Grammar.optionalParts ⟨.conventionalStart, false, true⟩) ∧
      Grammar.optionalParts.ComesBehind (.ofChar 'A') (.ofChar 'c') :=
  have ha : Grammar.optionalParts.analyze [.skipCheck true] =
      .ok (ofConfig Grammar.optionalParts ⟨.conventionalStart, false, true⟩) :=
    Grammar.analyze_of_skipCheck rfl rfl rfl
  ⟨ha, (((follow_iff_derives rfl rfl ha).1 (.ofChar 'A') (by decide +kernel)).1
    (.ofChar 'c') rfl).mp (by decide +kernel)⟩

end Analysis

end Lookahead
