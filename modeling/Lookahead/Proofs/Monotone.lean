import Mathlib.Data.List.Perm.Subperm
import Lookahead.Proofs.Select
import Lookahead.Proofs.Violations

/-!
# More rules find more

A grammar is part of another one if its rules are among those of the other, each as often as it
occurs, and if what it defines the other defines (`Grammar.PartOf`).  Derivations of the part are
derivations of the whole (`Grammar.Derives.mono`), so what is nullable stays nullable.  From there
every stage is carried over by its own specification: a scan that looks through more symbols reaches
more, a closure of more pairs over more symbols has more pairs, and the sets are read off the
relations.  In what order a stage found its results plays no part in this.

The LL(1) check compares pairs of rules, and two rules of one nonterminal may be written alike.  It
is here that the number of occurrences counts (`PartOf.exists_pair`).

**The analysis is monotone** (`Grammar.analyze_monotone`).  All that is found of a part is found of
the whole, and what the check refuses it refuses with more rules.  Grammars that differ in the order
of their definitions and alternatives are parts of each other, so all their results agree.
-/

namespace Lookahead

/-! ### Scans -/

namespace NullableSet

variable {ns ns' : NullableSet} (hns : ∀ A, ns.contains A = true → ns'.contains A = true)

include hns

theorem Vanishes.mono {α : List Symbol} (h : ns.Vanishes α) : ns'.Vanishes α :=
  fun X hX => hns X (h X hX)

theorem mem_reachable_mono {X : Symbol} {α : List Symbol} (h : X ∈ ns.reachable α) :
    X ∈ ns'.reachable α := by
  obtain ⟨u, v, hα, hu⟩ := mem_reachable.mp h
  exact mem_reachable.mpr ⟨u, v, hα, hu.mono hns⟩

theorem mem_adjacent_mono {X Y : Symbol} {α : List Symbol} (h : ⟨X, Y⟩ ∈ ns.adjacent α) :
    ⟨X, Y⟩ ∈ ns'.adjacent α := by
  obtain ⟨hX, u, v, hα, hY⟩ := mem_adjacent.mp h
  exact mem_adjacent.mpr ⟨hX, u, v, hα, mem_reachable_mono hns hY⟩

end NullableSet

/-! ### Relations -/

namespace Relation

variable {r r' : Relation}

theorem mem_lefts {a : Symbol} : a ∈ r.lefts ↔ ∃ b, r.Relates a b := by
  rw [lefts, List.mem_eraseDups, List.mem_map]
  refine ⟨?_, ?_⟩
  · rintro ⟨⟨a, b⟩, hp, rfl⟩
    exact ⟨b, hp⟩
  · rintro ⟨b, hb⟩
    exact ⟨⟨a, b⟩, hb, rfl⟩

/-- The closure of more pairs over more symbols. -/
theorem close_mono {tag : RelationTag} {univ univ' : List Symbol}
    (hr : ∀ a b, r.Relates a b → r'.Relates a b) (huniv : univ ⊆ univ') {a b : Symbol}
    (h : (r.close tag univ).Relates a b) : (r'.close tag univ').Relates a b := by
  rw [mem_close] at h ⊢
  rcases h with h | ⟨hab, hmem, hε⟩
  · exact .inl (Relation.TransGen.mono hr a b h)
  · exact .inr ⟨hab, huniv hmem, hε⟩

end Relation

namespace Grammar

variable {g g' : Grammar}

/-! ### Rules among other rules -/

theorem eq_and_eq_of_perm_pair {α : Type} {a b c d : α} (h : [a, b].Perm [c, d]) :
    (a = c ∧ b = d) ∨ (a = d ∧ b = c) := by
  rcases List.mem_pair.mp (h.subset List.mem_cons_self) with rfl | rfl
  · exact .inl ⟨rfl, List.singleton_perm_singleton.mp (List.Perm.cons_inv h)⟩
  · have hswap : [a, b].Perm [a, c] := h.trans (List.Perm.swap a c [])
    exact .inr ⟨rfl, List.singleton_perm_singleton.mp (List.Perm.cons_inv hswap)⟩

/-- The rules of a grammar are among those of another one, each as often as it occurs, and what it
defines the other one defines. -/
structure PartOf (g g' : Grammar) : Prop where
  sides : g.sides.Subperm g'.sides
  nonterminals : g.nonterminals ⊆ g'.nonterminals

namespace PartOf

theorem exists_rule (h : g.PartOf g') {r : Rule} (hr : r ∈ g.rules) :
    ∃ r' ∈ g'.rules, r'.lhs = r.lhs ∧ r'.rhs = r.rhs := by
  have hside : (r.lhs, r.rhs) ∈ g'.sides := h.sides.subset (mem_sides_of_mem_rules hr)
  rw [← map_rules, List.mem_map] at hside
  obtain ⟨r', hr', hsides⟩ := hside
  exact ⟨r', hr', (Prod.mk.inj hsides).1, (Prod.mk.inj hsides).2⟩

/-- Two rules of a nonterminal stay two, even if they are written alike. -/
theorem exists_pair (h : g.PartOf g') {r s : Rule} (hr : r ∈ g.rules) (hs : s ∈ g.rules)
    (hlhs : s.lhs = r.lhs) (hlt : r.serial < s.serial) :
    ∃ r' ∈ g'.rules, ∃ s' ∈ g'.rules, (r'.lhs = r.lhs ∧ r'.rhs = r.rhs) ∧
      (s'.lhs = s.lhs ∧ s'.rhs = s.rhs) ∧ r'.serial ≠ s'.serial := by
  have hsub : [r, s].Sublist g.rules :=
    (sublist_rulesFor.mpr ⟨mem_rulesFor.mpr ⟨hr, rfl⟩, mem_rulesFor.mpr ⟨hs, hlhs⟩, hlt⟩).trans
      List.filter_sublist
  have hpair : [(r.lhs, r.rhs), (s.lhs, s.rhs)].Subperm g'.sides := by
    have hsides := hsub.map fun r => (r.lhs, r.rhs)
    rw [map_rules] at hsides
    exact hsides.subperm.trans h.sides
  obtain ⟨found, hperm, hfound⟩ := hpair
  rw [← map_rules] at hfound
  obtain ⟨chosen, hchosen, rfl⟩ := List.sublist_map_iff.mp hfound
  have hlength : chosen.length = 2 := by simpa using hperm.length_eq
  obtain ⟨x, y, rfl⟩ := List.length_eq_two.mp hlength
  have hx : x ∈ g'.rules := hchosen.subset (by simp)
  have hy : y ∈ g'.rules := hchosen.subset (by simp)
  have hxy : x.serial < y.serial :=
    List.pairwise_iff_forall_sublist.mp (pairwise_serial_rules g') hchosen
  -- the pair may have been found in either order
  rcases eq_and_eq_of_perm_pair hperm with ⟨hxr, hys⟩ | ⟨hxs, hyr⟩
  · exact ⟨x, hx, y, hy, Prod.mk.inj hxr, Prod.mk.inj hys, Nat.ne_of_lt hxy⟩
  · exact ⟨y, hy, x, hx, Prod.mk.inj hyr, Prod.mk.inj hxs, Nat.ne_of_gt hxy⟩

end PartOf

theorem Step.mono (h : g.PartOf g') {α β : List Symbol} (hstep : g.Step α β) : g'.Step α β := by
  obtain ⟨hr, u, v⟩ := hstep
  obtain ⟨r', hr', hlhs, hrhs⟩ := h.exists_rule hr
  rw [← hlhs, ← hrhs]
  exact .expand hr' u v

/-- What a part derives the whole derives. -/
theorem Derives.mono (h : g.PartOf g') {α β : List Symbol} (hder : g.Derives α β) :
    g'.Derives α β := by
  induction hder with
  | refl => exact .refl _
  | more hstep _ ih => exact .more (hstep.mono h) ih

/-! ### Neighbours -/

namespace PartOf

variable (h : g.PartOf g')

include h

theorem nullable {A : Symbol} (hA : g.nullable.contains A = true) :
    g'.nullable.contains A = true := by
  rw [NullableSet.contains_iff_derives] at hA ⊢
  exact hA.mono h

theorem beginsDirectly {A X : Symbol} (hAX : g.BeginsDirectly g.nullable A X) :
    g'.BeginsDirectly g'.nullable A X := by
  obtain ⟨r, hr, rfl, hX⟩ := hAX
  obtain ⟨r', hr', hlhs, hrhs⟩ := h.exists_rule hr
  rw [← hrhs] at hX
  exact ⟨r', hr', hlhs, NullableSet.mem_reachable_mono (fun _ => h.nullable) hX⟩

theorem endsDirectly {X A : Symbol} (hXA : g.EndsDirectly g.nullable X A) :
    g'.EndsDirectly g'.nullable X A := by
  obtain ⟨r, hr, rfl, hX⟩ := hXA
  obtain ⟨r', hr', hlhs, hrhs⟩ := h.exists_rule hr
  rw [← hrhs] at hX
  exact ⟨r', hr', hlhs, NullableSet.mem_reachable_mono (fun _ => h.nullable) hX⟩

theorem followsDirectly {X Y : Symbol} (hXY : g.FollowsDirectly g.nullable X Y) :
    g'.FollowsDirectly g'.nullable X Y := by
  obtain ⟨r, hr, hadj⟩ := hXY
  obtain ⟨r', hr', -, hrhs⟩ := h.exists_rule hr
  rw [← hrhs] at hadj
  exact ⟨r', hr', NullableSet.mem_adjacent_mono (fun _ => h.nullable) hadj⟩

theorem exists_writtenRule {r : Rule} (hr : r ∈ g.writtenRules) :
    ∃ r' ∈ g'.writtenRules, r'.lhs = r.lhs ∧ r'.rhs = r.rhs := by
  obtain ⟨hr, hε⟩ := mem_writtenRules.mp hr
  obtain ⟨r', hr', hlhs, hrhs⟩ := h.exists_rule hr
  exact ⟨r', mem_writtenRules.mpr ⟨hr', hrhs ▸ hε⟩, hlhs, hrhs⟩

theorem endAdjacency {q : Pair} (hq : q ∈ g.endAdjacency g.nullable) :
    q ∈ g'.endAdjacency g'.nullable := by
  obtain ⟨⟨hnull, hterm⟩, r, hr, hinside⟩ := mem_endAdjacency.mp hq
  obtain ⟨r', hr', -, hrhs⟩ := h.exists_writtenRule hr
  rw [← hrhs] at hinside
  exact mem_endAdjacency.mpr ⟨⟨h.nullable hnull, hterm⟩, r', hr', hinside⟩

theorem occurrences {X : Symbol} (hX : X ∈ g.occurrences) : X ∈ g'.occurrences := by
  obtain ⟨d, hd, hX⟩ := List.mem_flatMap.mp hX
  rcases List.mem_cons.mp hX with rfl | hX
  · exact mem_occurrences_of_mem_nonterminals (h.nonterminals (List.mem_map.mpr ⟨d, hd, rfl⟩))
  · obtain ⟨p, hp, hX⟩ := List.mem_flatten.mp hX
    have hside : (d.lhs, p) ∈ g'.sides := h.sides.subset (mem_sides.mpr ⟨d, hd, rfl, hp⟩)
    rw [← map_rules, List.mem_map] at hside
    obtain ⟨r, hr, hsides⟩ := hside
    exact mem_occurrences_of_mem_rhs hr ((Prod.mk.inj hsides).2 ▸ hX)

theorem terminals : g.terminals ⊆ g'.terminals := by
  intro t ht
  obtain ⟨hocc, hterm⟩ := mem_terminals.mp ht
  exact mem_terminals.mpr ⟨h.occurrences hocc, hterm⟩

theorem referenced : g.referenced ⊆ g'.referenced := by
  intro A hA
  obtain ⟨hocc, hnon⟩ := mem_referenced.mp hA
  exact mem_referenced.mpr ⟨h.occurrences hocc, hnon⟩

theorem endUniverse : g.endUniverse ⊆ g'.endUniverse := by
  intro X hX
  obtain ⟨hocc, hkind⟩ := mem_endUniverse.mp hX
  exact mem_endUniverse.mpr ⟨h.occurrences hocc, hkind⟩

/-! ### The relations -/

theorem beginsDirectlyWith (A X : Symbol)
    (hAX : (g.beginsDirectlyWith g.nullable).Relates A X) :
    (g'.beginsDirectlyWith g'.nullable).Relates A X := by
  rw [relates_beginsDirectlyWith] at hAX ⊢
  exact h.beginsDirectly hAX

theorem beginsWith (A X : Symbol)
    (hAX : (g.beginsWith (g.beginsDirectlyWith g.nullable)).Relates A X) :
    (g'.beginsWith (g'.beginsDirectlyWith g'.nullable)).Relates A X := by
  refine Relation.close_mono h.beginsDirectlyWith ?_ hAX
  refine List.append_subset.mpr ⟨fun B hB => ?_, fun t ht => ?_⟩
  · obtain ⟨Y, hY⟩ := Relation.mem_lefts.mp hB
    exact List.mem_append_left _ (Relation.mem_lefts.mpr ⟨Y, h.beginsDirectlyWith B Y hY⟩)
  · exact List.mem_append_right _ (h.terminals ht)

theorem followedDirectlyBy (X Y : Symbol)
    (hXY : (g.followedDirectlyBy g.nullable).Relates X Y) :
    (g'.followedDirectlyBy g'.nullable).Relates X Y := by
  rw [relates_followedDirectlyBy] at hXY ⊢
  exact h.followsDirectly hXY

theorem directlyEnds {adjacentEnds : Bool} (X A : Symbol)
    (hXA : (g.directlyEnds g.nullable adjacentEnds).Relates X A) :
    (g'.directlyEnds g'.nullable adjacentEnds).Relates X A := by
  rw [relates_directlyEnds] at hXA ⊢
  rcases hXA with hends | ⟨hX, hnull, r, hr, hlhs⟩ | ⟨hon, hadj⟩
  · exact .inl (h.endsDirectly hends)
  · obtain ⟨r', hr', hlhs', -⟩ := h.exists_writtenRule hr
    exact .inr (.inl ⟨hX, h.nullable hnull, r', hr', hlhs'.trans hlhs⟩)
  · exact .inr (.inr ⟨hon, h.endAdjacency hadj⟩)

theorem ends {adjacentEnds : Bool} (X A : Symbol)
    (hXA : (g.ends (g.directlyEnds g.nullable adjacentEnds)).Relates X A) :
    (g'.ends (g'.directlyEnds g'.nullable adjacentEnds)).Relates X A :=
  Relation.close_mono h.directlyEnds h.endUniverse hXA

theorem followedBy {c : Config} (X Y : Symbol)
    (hXY : (Analysis.ofConfig g c).fb.Relates X Y) :
    (Analysis.ofConfig g' c).fb.Relates X Y := by
  rw [Analysis.relates_fb] at hXY ⊢
  rcases hXY with ⟨hY, hX, hend⟩ | ⟨B, C, hXB, hBC, hCY⟩
  · exact .inl ⟨hY, hX, h.ends X c.start hend⟩
  · exact .inr ⟨B, C, h.ends X B hXB, h.followedDirectlyBy B C hBC, h.beginsWith C Y hCY⟩

/-! ### The check -/

theorem hasFront {A X : Symbol} (hAX : g.HasFront A X) : g'.HasFront A X := by
  obtain ⟨r, hr, rfl, hX⟩ := hAX
  obtain ⟨r', hr', hlhs, hrhs⟩ := h.exists_rule hr
  exact ⟨r', hr', hlhs, hrhs ▸ hX⟩

theorem leads {p : Production} {X : Symbol} (hX : X ∈ g.leads p) : X ∈ g'.leads p := by
  rw [mem_leads] at hX ⊢
  obtain ⟨hnon, Y, hY, hled⟩ := hX
  exact ⟨hnon, Y, hY, Relation.ReflTransGen.mono (fun _ _ => h.hasFront) Y X hled⟩

/-- A part of a grammar that passes the check passes it. -/
theorem check_ok (hcheck : g'.check = .ok ()) : g.check = .ok () := by
  rw [check_eq_ok_iff] at hcheck ⊢
  obtain ⟨hfront, happart⟩ := hcheck
  refine ⟨fun r hr => ?_, fun r hr s hs hlhs hlt X hXr hXs => ?_⟩
  · obtain ⟨r', hr', hlhs, hrhs⟩ := h.exists_rule hr
    rw [← hlhs, ← hrhs]
    exact hfront r' hr'
  · obtain ⟨r', hr', s', hs', ⟨hr'lhs, hr'rhs⟩, ⟨hs'lhs, hs'rhs⟩, hne⟩ :=
      h.exists_pair hr hs hlhs hlt
    have hXr' : X ∈ g'.leads r'.rhs := hr'rhs ▸ h.leads hXr
    have hXs' : X ∈ g'.leads s'.rhs := hs'rhs ▸ h.leads hXs
    have hlhs' : s'.lhs = r'.lhs := by rw [hs'lhs, hr'lhs, hlhs]
    rcases Nat.lt_or_gt_of_ne hne with hlt' | hlt'
    · exact happart r' hr' s' hs' hlhs' hlt' X hXr' hXs'
    · exact happart s' hs' r' hr' hlhs'.symm hlt' X hXs' hXr'

end PartOf

end Grammar

/-! ### The sets -/

namespace FollowSets

theorem ordered_getD (g : Grammar) (ns : NullableSet) (fb : Relation) (A : Symbol) :
    ((ofGrammar g ns fb).table.getD A).Ordered := by
  have hvisit : ∀ (t : SetTable) (q : Pair), t.Each SymbolSet.Ordered →
      (visit t q).Each SymbolSet.Ordered := by
    intro t q ht
    unfold visit
    split
    · exact ht.insert SymbolSet.ordered_empty fun _ hS => hS.insertAll _
    · exact ht
  have hall : (ofGrammar g ns fb).table.Each SymbolSet.Ordered :=
    List.foldlRecOn _ _ (SetTable.each_ofKeys _ SymbolSet.ordered_empty) fun t ht q _ =>
      hvisit t q ht
  exact hall.getD SymbolSet.ordered_empty

theorem ordered_of? {g : Grammar} {ns : NullableSet} {fb : Relation} {A : Symbol} {S : SymbolSet}
    (h : (ofGrammar g ns fb).of? A = some S) : S.Ordered := by
  have hgetD := ordered_getD g ns fb A
  rwa [SetTable.getD, show (ofGrammar g ns fb).table.get? A = some S from h,
    Option.getD_some] at hgetD

end FollowSets

namespace Analysis

variable {g g' : Grammar} {c : Config}

theorem ordered_first (A : Symbol) : ((ofConfig g c).first.of A).Ordered := by
  rw [FirstSets.of]
  split
  · exact SymbolSet.ordered_ofList _
  · exact FirstSets.ordered_getD (NullableSet.onlyNonterminals_ofGrammar g) _ A

theorem ordered_select {r : Rule} (hr : r ∈ g.rules) : ((ofConfig g c).select.of r).Ordered := by
  have hset : (ofConfig g c).select.of r =
      (SelectSet.ofRule (ofConfig g c).first (ofConfig g c).follow r).set :=
    Option.some.inj ((select_of? hr).symm.trans (SelectSets.of?_ofGrammar hr))
  have hown : ((ofConfig g c).first.ofSequence r.rhs).Ordered := by
    rw [FirstSets.ofSequence_eq]
    exact FirstSets.ordered_ofSymbols _ _
  rw [hset, SelectSet.ofRule]
  split
  · exact FollowSets.ordered_getD g _ _ r.lhs
  · dsimp only
    split
    · exact hown.union _ true
    · exact hown

theorem mem_first_mono (h : g.PartOf g') {A X : Symbol} (hX : X ∈ (ofConfig g c).first.of A) :
    X ∈ (ofConfig g' c).first.of A := by
  rw [FirstSets.of] at hX ⊢
  split at hX
  · rename_i hA
    rwa [if_pos hA]
  · rename_i hA
    rw [if_neg hA]
    have hpredicted :=
      (FirstSets.mem_table_ofGrammar (NullableSet.onlyNonterminals_ofGrammar g)).mp hX
    refine (FirstSets.mem_table_ofGrammar (NullableSet.onlyNonterminals_ofGrammar g')).mpr ?_
    rcases hpredicted with ⟨rfl, r, hr, hlhs, hempty⟩ | ⟨hterm, hAX⟩
    · obtain ⟨r', hr', hlhs', hrhs⟩ := h.exists_rule hr
      rw [← hrhs] at hempty
      exact .inl ⟨rfl, r', hr', hlhs'.trans hlhs, hempty.mono fun _ => h.nullable⟩
    · exact .inr ⟨hterm, Relation.TransGen.mono (fun _ _ => h.beginsDirectly) A X hAX⟩

theorem exists_follow_mono (h : g.PartOf g') {A : Symbol} {S : SymbolSet}
    (hS : (ofConfig g c).follow.of? A = some S) :
    ∃ S', (ofConfig g' c).follow.of? A = some S' ∧ ∀ X ∈ S, X ∈ S' := by
  obtain ⟨href, hnull⟩ := FollowSets.isSome_of?.mp (Option.isSome_of_eq_some hS)
  obtain ⟨S', hS'⟩ := Option.isSome_iff_exists.mp
    (FollowSets.isSome_of?.mpr ⟨h.referenced href, h.nullable hnull⟩)
  refine ⟨S', hS', fun X hX => ?_⟩
  obtain ⟨hfb, hkind⟩ := (FollowSets.mem_of? hS).mp hX
  exact (FollowSets.mem_of? hS').mpr ⟨h.followedBy A X hfb, hkind⟩

theorem mem_select_mono (h : g.PartOf g') {r r' : Rule} (hr : r ∈ g.rules) (hr' : r' ∈ g'.rules)
    (hlhs : r'.lhs = r.lhs) (hrhs : r'.rhs = r.rhs) {X : Symbol}
    (hX : X ∈ (ofConfig g c).select.of r) : X ∈ (ofConfig g' c).select.of r' := by
  rw [mem_select hr] at hX
  rw [mem_select hr', hlhs, hrhs]
  rcases hX with ⟨hε, hne, hempty⟩ | ⟨hterm, γ, hγ⟩ | ⟨hempty, hfb, hkind⟩
  · exact .inl ⟨hε, hne, hempty.mono h⟩
  · exact .inr (.inl ⟨hterm, γ, hγ.mono h⟩)
  · exact .inr (.inr ⟨hempty.mono h, h.followedBy _ _ hfb, hkind⟩)

/-! ### Analyses compared -/

/-- All that one analysis finds another one finds. -/
structure Below (a a' : Analysis) : Prop where
  nullable : ∀ A, a.nullable.contains A = true → a'.nullable.contains A = true
  bdw : ∀ q ∈ a.bdw, q ∈ a'.bdw
  bw : ∀ q ∈ a.bw, q ∈ a'.bw
  fdb : ∀ q ∈ a.fdb, q ∈ a'.fdb
  deo : ∀ q ∈ a.deo, q ∈ a'.deo
  eo : ∀ q ∈ a.eo, q ∈ a'.eo
  fb : ∀ q ∈ a.fb, q ∈ a'.fb
  first : ∀ A, ∀ X ∈ a.first.of A, X ∈ a'.first.of A
  follow : ∀ A S, a.follow.of? A = some S → ∃ S', a'.follow.of? A = some S' ∧ ∀ X ∈ S, X ∈ S'
  select : ∀ r ∈ a.grammar.rules, ∀ r' ∈ a'.grammar.rules, r'.lhs = r.lhs → r'.rhs = r.rhs →
    ∀ X ∈ a.select.of r, X ∈ a'.select.of r'

/-- Two analyses find the same, but for the order in which they found it. -/
structure Agrees (a a' : Analysis) : Prop where
  nullable : ∀ A, a.nullable.contains A = a'.nullable.contains A
  bdw : ∀ q, q ∈ a.bdw ↔ q ∈ a'.bdw
  bw : ∀ q, q ∈ a.bw ↔ q ∈ a'.bw
  fdb : ∀ q, q ∈ a.fdb ↔ q ∈ a'.fdb
  deo : ∀ q, q ∈ a.deo ↔ q ∈ a'.deo
  eo : ∀ q, q ∈ a.eo ↔ q ∈ a'.eo
  fb : ∀ q, q ∈ a.fb ↔ q ∈ a'.fb
  first : ∀ A, a.first.of A = a'.first.of A
  follow : ∀ A, a.follow.of? A = a'.follow.of? A
  select : ∀ r ∈ a.grammar.rules, ∀ r' ∈ a'.grammar.rules, r'.lhs = r.lhs → r'.rhs = r.rhs →
    a.select.of r = a'.select.of r'

theorem below_of_partOf (h : g.PartOf g') : (ofConfig g c).Below (ofConfig g' c) where
  nullable _ := h.nullable
  bdw q := h.beginsDirectlyWith q.left q.right
  bw q := h.beginsWith q.left q.right
  fdb q := h.followedDirectlyBy q.left q.right
  deo q := h.directlyEnds q.left q.right
  eo q := h.ends q.left q.right
  fb q := h.followedBy q.left q.right
  first _ _ := mem_first_mono h
  follow _ _ := exists_follow_mono h
  select _ hr _ hr' hlhs hrhs _ := mem_select_mono h hr hr' hlhs hrhs

/-- What each of two analyses finds of the other is the same. -/
theorem agrees_of_below (h : (ofConfig g c).Below (ofConfig g' c))
    (h' : (ofConfig g' c).Below (ofConfig g c)) : (ofConfig g c).Agrees (ofConfig g' c) where
  nullable A := Bool.eq_iff_iff.mpr ⟨h.nullable A, h'.nullable A⟩
  bdw q := ⟨h.bdw q, h'.bdw q⟩
  bw q := ⟨h.bw q, h'.bw q⟩
  fdb q := ⟨h.fdb q, h'.fdb q⟩
  deo q := ⟨h.deo q, h'.deo q⟩
  eo q := ⟨h.eo q, h'.eo q⟩
  fb q := ⟨h.fb q, h'.fb q⟩
  first A := SymbolSet.eq_of_mem_iff (ordered_first A) (ordered_first A) fun X =>
    ⟨h.first A X, h'.first A X⟩
  follow A := by
    cases hS : (ofConfig g c).follow.of? A with
    | some S =>
        obtain ⟨S', hS', hsub⟩ := h.follow A S hS
        obtain ⟨T, hT, hsub'⟩ := h'.follow A S' hS'
        obtain rfl := Option.some.inj (hS.symm.trans hT)
        rw [hS', SymbolSet.eq_of_mem_iff (FollowSets.ordered_of? hS) (FollowSets.ordered_of? hS')
          fun X => ⟨hsub X, hsub' X⟩]
    | none =>
        cases hS' : (ofConfig g' c).follow.of? A with
        | none => rfl
        | some S' =>
            obtain ⟨S, hfound, -⟩ := h'.follow A S' hS'
            cases hS.symm.trans hfound
  select r hr r' hr' hlhs hrhs :=
    SymbolSet.eq_of_mem_iff (ordered_select hr) (ordered_select hr') fun X =>
      ⟨h.select r hr r' hr' hlhs hrhs X, h'.select r' hr' r hr hlhs.symm hrhs.symm X⟩

end Analysis

namespace Grammar

variable {g g' : Grammar}

/-- Grammars with the same definitions and alternatives in some order. -/
structure Reorders (g g' : Grammar) : Prop where
  sides : g.sides.Perm g'.sides
  nonterminals : g.nonterminals.Perm g'.nonterminals

theorem Reorders.partOf (h : g.Reorders g') : g.PartOf g' :=
  ⟨h.sides.subperm, h.nonterminals.subset⟩

theorem Reorders.symm (h : g.Reorders g') : g'.Reorders g := ⟨h.sides.symm, h.nonterminals.symm⟩

/-- **The analysis is monotone in the rules and does not depend on their order.**  Under settings
that leave the check out, all that is found of a part of a grammar is found of the whole, and a
grammar that is refused by the check is refused with more rules.  Grammars that differ only in the
order of their definitions and alternatives have analyses that agree. -/
theorem analyze_monotone {d d' : Draft} (hg : d.grammar = .ok g) (hg' : d'.grammar = .ok g')
    {settings : List Setting} {c : Config} (hc : Config.ofSettings settings = .ok c)
    (hskip : c.skipCheck = true) :
    ∃ a a', g.analyze settings = .ok a ∧ g'.analyze settings = .ok a' ∧
      (g.PartOf g' → a.Below a' ∧ ((∃ e, g.check = .error e) → ∃ e, g'.check = .error e)) ∧
      (g.Reorders g' → a.Agrees a') := by
  refine ⟨_, _, analyze_of_skipCheck (Draft.isEmpty_of_grammar hg) hc hskip,
    analyze_of_skipCheck (Draft.isEmpty_of_grammar hg') hc hskip, fun hpart => ?_, fun horder => ?_⟩
  · refine ⟨Analysis.below_of_partOf hpart, ?_⟩
    rintro ⟨e, he⟩
    cases hcheck : g'.check with
    | error e' => exact ⟨e', rfl⟩
    | ok _ => cases he.symm.trans (hpart.check_ok hcheck)
  · exact Analysis.agrees_of_below (Analysis.below_of_partOf horder.partOf)
      (Analysis.below_of_partOf horder.symm.partOf)

end Grammar

/-- The optional parts from back to front, with a rule more: `B → ϵ | b`, `A → ϵ | a | B`,
`S → A B c`, as a draft. -/
def Draft.moreParts : Draft :=
  (((Draft.empty (Text.bytes "G")).define (.ofChar 'B') [[.epsilon], [.ofChar 'b']]).define
    (.ofChar 'A') [[.epsilon], [.ofChar 'a'], [.ofChar 'B']]).define (.ofChar 'S')
      [[.ofChar 'A', .ofChar 'B', .ofChar 'c']]

/-- `B → ϵ | b`, `A → ϵ | a | B`, `S → A B c`. -/
def Grammar.moreParts : Grammar :=
  ⟨Text.bytes "G", Draft.moreParts.definitions, Draft.moreParts.wellFormed⟩

/-- What is found of the optional parts is found with a rule more, in another order. -/
theorem Grammar.optionalParts_below_moreParts :
    Grammar.optionalParts.PartOf Grammar.moreParts ∧
      ∃ a a', Grammar.optionalParts.analyze [.skipCheck true] = .ok a ∧
        Grammar.moreParts.analyze [.skipCheck true] = .ok a' ∧ a.Below a' := by
  have hpart : Grammar.optionalParts.PartOf Grammar.moreParts :=
    ⟨by decide +kernel, by decide +kernel⟩
  have hgrammar : Draft.moreParts.grammar = .ok Grammar.moreParts := rfl
  have hsettings : Config.ofSettings [.skipCheck true] = .ok ⟨.conventionalStart, false, true⟩ :=
    rfl
  obtain ⟨a, a', ha, ha', hbelow, -⟩ :=
    analyze_monotone Draft.grammar_optionalParts hgrammar hsettings rfl
  exact ⟨hpart, a, a', ha, ha', (hbelow hpart).1⟩

end Lookahead
