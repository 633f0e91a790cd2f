import Lookahead.Proofs.Monotone

/-!
# Counting more ends

An analysis may count a nullable symbol right before a terminal as an end of that terminal.  The
pairs that this adds to `DEO` are those of the end adjacency, which is found in either case; nothing
that is found before `DEO` takes notice.  Behind it the stages only gain.  The added pairs lead from
a nonterminal to a terminal, and the closure may chain them with others, so `EO` can gain pairs that
no rule accounts for; but a closure of more pairs has more pairs, a join of more pairs has more
pairs, and FOLLOW, SELECT and the conflicts are read off by membership.

**Widening** (`Grammar.analyze_adjacentEnds`).  With the option, an analysis finds the same nullable
set, `BDW`, `BW`, FIRST, `FDB` and end adjacency, and at least the same of all else.
-/

namespace Lookahead

/-! ### Conflicts under growing SELECT sets -/

namespace SelectSets

variable {g : Grammar} {sel sel' : SelectSets}

/-- What conflicts under some SELECT sets conflicts under larger ones, over at least the same
symbols. -/
theorem exists_conflict_mono (hsel : ∀ r ∈ g.rules, ∀ X ∈ sel.of r, X ∈ sel'.of r) {k : Conflict}
    (hk : k ∈ sel.conflicts g) :
    ∃ k' ∈ sel'.conflicts g, k'.nonterminal = k.nonterminal ∧ k'.first = k.first ∧
      k'.second = k.second ∧ k.symbols ⊆ k'.symbols := by
  obtain ⟨hfirst, hsecond, hlt, hsymbols, hne⟩ := mem_conflicts.mp hk
  have hcommon : k.symbols ⊆ sel'.common k.first k.second := by
    intro X hX
    rw [hsymbols, mem_common] at hX
    obtain ⟨hXr, hXs, hXε⟩ := hX
    have hr := (Grammar.mem_rulesFor.mp hfirst).1
    have hs := (Grammar.mem_rulesFor.mp hsecond).1
    exact mem_common.mpr ⟨hsel k.first hr X hXr, hsel k.second hs X hXs, hXε⟩
  have hne' : sel'.common k.first k.second ≠ [] := by
    obtain ⟨X, hX⟩ := List.exists_mem_of_ne_nil _ hne
    exact List.ne_nil_of_mem (hcommon hX)
  exact ⟨⟨k.nonterminal, k.first, k.second, sel'.common k.first k.second⟩,
    mem_conflicts.mpr ⟨hfirst, hsecond, hlt, rfl, hne'⟩, rfl, rfl, rfl, hcommon⟩

end SelectSets

/-! ### Two configurations -/

/-- A configuration that differs from another one at most in that it counts more ends. -/
structure Config.Widens (c c' : Config) : Prop where
  start : c'.start = c.start
  adjacentEnds : c.adjacentEnds = true → c'.adjacentEnds = true

namespace Analysis

variable {g : Grammar} {c c' : Config} (h : c.Widens c')

section Stages

include h

theorem deo_mono {X A : Symbol} (hXA : (ofConfig g c).deo.Relates X A) :
    (ofConfig g c').deo.Relates X A := by
  have hdeo : ∀ c : Config, (ofConfig g c).deo = g.directlyEnds g.nullable c.adjacentEnds :=
    fun _ => rfl
  rw [hdeo, Grammar.relates_directlyEnds] at hXA ⊢
  rcases hXA with hends | hself | ⟨hon, hadj⟩
  · exact .inl hends
  · exact .inr (.inl hself)
  · exact .inr (.inr ⟨h.adjacentEnds hon, hadj⟩)

theorem eo_mono {X A : Symbol} (hXA : (ofConfig g c).eo.Relates X A) :
    (ofConfig g c').eo.Relates X A :=
  Relation.close_mono (fun _ _ => deo_mono h) (List.Subset.refl g.endUniverse) hXA

theorem fb_mono {X Y : Symbol} (hXY : (ofConfig g c).fb.Relates X Y) :
    (ofConfig g c').fb.Relates X Y := by
  rw [relates_fb] at hXY ⊢
  rcases hXY with ⟨hY, hX, hend⟩ | ⟨B, C, hXB, hBC, hCY⟩
  · rw [h.start]
    exact .inl ⟨hY, hX, eo_mono h hend⟩
  · exact .inr ⟨B, C, eo_mono h hXB, hBC, hCY⟩

/-- The nonterminals with a FOLLOW set do not depend on the configuration, and the sets grow with
`FB`. -/
theorem exists_follow_of_widens {A : Symbol} {S : SymbolSet}
    (hS : (ofConfig g c).follow.of? A = some S) :
    ∃ S', (ofConfig g c').follow.of? A = some S' ∧ ∀ X ∈ S, X ∈ S' := by
  have hsome := isSome_follow.mp (Option.isSome_of_eq_some hS)
  obtain ⟨S', hS'⟩ := Option.isSome_iff_exists.mp ((isSome_follow (c := c')).mpr hsome)
  refine ⟨S', hS', fun X hX => ?_⟩
  obtain ⟨hfb, hkind⟩ := (FollowSets.mem_of? hS).mp hX
  exact (FollowSets.mem_of? hS').mpr ⟨fb_mono h hfb, hkind⟩

theorem mem_select_of_widens {r : Rule} (hr : r ∈ g.rules) {X : Symbol}
    (hX : X ∈ (ofConfig g c).select.of r) : X ∈ (ofConfig g c').select.of r := by
  rw [mem_select hr] at hX ⊢
  rcases hX with hε | hfirst | ⟨hempty, hfb, hkind⟩
  · exact .inl hε
  · exact .inr (.inl hfirst)
  · exact .inr (.inr ⟨hempty, fb_mono h hfb, hkind⟩)

end Stages

/-! ### Two analyses -/

/-- One analysis is widened by another one: what does not depend on ends is the same, `DEO` gains
the end adjacency, and what is found behind `DEO` is found again. -/
structure WidenedBy (a a' : Analysis) : Prop where
  nullable : a'.nullable = a.nullable
  bdw : a'.bdw = a.bdw
  bw : a'.bw = a.bw
  first : a'.first = a.first
  fdb : a'.fdb = a.fdb
  endAdjacency : a'.endAdjacency = a.endAdjacency
  deo : ∀ q, q ∈ a'.deo ↔ q ∈ a.deo ∨ q ∈ a.endAdjacency
  eo : ∀ q ∈ a.eo, q ∈ a'.eo
  fb : ∀ q ∈ a.fb, q ∈ a'.fb
  follow : ∀ A S, a.follow.of? A = some S → ∃ S', a'.follow.of? A = some S' ∧ ∀ X ∈ S, X ∈ S'
  select : ∀ r ∈ a.grammar.rules, ∀ X ∈ a.select.of r, X ∈ a'.select.of r
  conflicts : ∀ k ∈ a.conflicts, ∃ k' ∈ a'.conflicts, k'.nonterminal = k.nonterminal ∧
    k'.first = k.first ∧ k'.second = k.second ∧ k.symbols ⊆ k'.symbols

/-- Counting them as ends puts the pairs of the end adjacency into `DEO`, and no other pairs. -/
theorem mem_directlyEnds_true {ns : NullableSet} {q : Pair} :
    q ∈ g.directlyEnds ns true ↔ q ∈ g.directlyEnds ns false ∨ q ∈ g.endAdjacency ns := by
  have hends : ∀ on, q ∈ g.directlyEnds ns on ↔
      (g.EndsDirectly ns q.left q.right ∨ q.left = q.right ∧ ns.contains q.right = true ∧
        ∃ r ∈ g.writtenRules, r.lhs = q.right) ∨ on = true ∧ q ∈ g.endAdjacency ns :=
    fun on => Grammar.relates_directlyEnds.trans or_assoc.symm
  rw [hends true, hends false]
  simp

theorem widenedBy_ofConfig (g : Grammar) (c : Config) :
    (ofConfig g { c with adjacentEnds := false }).WidenedBy
      (ofConfig g { c with adjacentEnds := true }) := by
  have h : Config.Widens { c with adjacentEnds := false } { c with adjacentEnds := true } :=
    ⟨rfl, fun _ => rfl⟩
  exact {
    nullable := rfl
    bdw := rfl
    bw := rfl
    first := rfl
    fdb := rfl
    endAdjacency := rfl
    deo := fun _ => mem_directlyEnds_true
    eo := fun _ => eo_mono h
    fb := fun _ => fb_mono h
    follow := fun _ _ => exists_follow_of_widens h
    select := fun _ hr _ => mem_select_of_widens h hr
    conflicts := fun _ =>
      SelectSets.exists_conflict_mono fun _ hr _ => mem_select_of_widens h hr }

end Analysis

namespace Grammar

variable {g : Grammar}

/-- **Widening.**  Of two analyses without the check whose settings differ only in whether nullable
symbols before terminals count as ends, the one that counts them widens the other. -/
theorem analyze_adjacentEnds {d : Draft} (hg : d.grammar = .ok g)
    {settings settings' : List Setting} {c : Config} (hskip : c.skipCheck = true)
    (hc : Config.ofSettings settings = .ok { c with adjacentEnds := false })
    (hc' : Config.ofSettings settings' = .ok { c with adjacentEnds := true }) :
    ∃ a a', g.analyze settings = .ok a ∧ g.analyze settings' = .ok a' ∧ a.WidenedBy a' :=
  ⟨_, _, analyze_of_skipCheck (Draft.isEmpty_of_grammar hg) hc hskip,
    analyze_of_skipCheck (Draft.isEmpty_of_grammar hg) hc' hskip, Analysis.widenedBy_ofConfig g c⟩

/-- Of two optional parts before a `c`, the second counts as an end of `c`; so it is found to stand
at the end of the input, where it never stands. -/
theorem optionalParts_widened :
    ∃ a a', optionalParts.analyze [.skipCheck true] = .ok a ∧
      optionalParts.analyze [.adjacentEnds true, .skipCheck true] = .ok a' ∧ a.WidenedBy a' ∧
      ⟨.ofChar 'B', .endMarker⟩ ∉ a.fb ∧ ⟨.ofChar 'B', .endMarker⟩ ∈ a'.fb := by
  have hc : Config.ofSettings [.skipCheck true] = .ok ⟨.conventionalStart, false, true⟩ := rfl
  have hc' : Config.ofSettings [.adjacentEnds true, .skipCheck true] =
      .ok ⟨.conventionalStart, true, true⟩ := rfl
  obtain ⟨a, a', ha, ha', hwide⟩ := analyze_adjacentEnds Draft.grammar_optionalParts
    (c := ⟨.conventionalStart, false, true⟩) rfl hc hc'
  refine ⟨a, a', ha, ha', hwide, ?_, ?_⟩
  · rw [eq_ofConfig_of_analyze hc ha]
    decide +kernel
  · rw [eq_ofConfig_of_analyze hc' ha']
    decide +kernel

end Grammar

end Lookahead
