import Lookahead.Report
import Lookahead.Proofs.Follow
import Lookahead.Proofs.Origins

/-!
# Reported closures

A report shows a closure in three sections, one for each origin, and each line says which pair it
shows (`format_injective`).  The relations of an analysis are built from the symbols of its grammar
by adding, closing and joining (`Analysis.built_ofConfig`), so they are coherent.

**Sections** (`listed_by_origin`).  In every relation that can be built a pair has an origin exactly
if it is there.  The pairs of one origin are listed in increasing order, and the pairs of the three
origins together are all pairs of the relation, each once; so are the lines of the three sections.
-/

namespace Lookahead

/-! ### Lines -/

theorem Symbol.Writable.toList_text {X : Symbol} (h : X.Writable) : X.text.toList = [X.char] := by
  have hne : X ≠ .absent := writable_iff.mp h
  cases X with
  | absent => exact absurd rfl hne
  | _ => simp [text, Char.toString]

namespace Relation

variable {r : Relation} {p q : Pair}

/-- The line of a pair says which pair it is. -/
theorem format_injective (hp : p.Writable) (hq : q.Writable) (h : r.format p = r.format q) :
    p = q := by
  have hlines := congrArg String.toList h
  simp only [format, String.toList_append, hp.1.toList_text, hp.2.toList_text, hq.1.toList_text,
    hq.2.toList_text, List.append_assoc, List.cons_append, List.cons.injEq,
    List.append_cancel_left_eq, and_true] at hlines
  obtain ⟨left, right⟩ := p
  obtain ⟨left', right'⟩ := q
  obtain rfl : left = left' := Symbol.char_injective hlines.1
  obtain rfl : right = right' := Symbol.char_injective hlines.2
  rfl

theorem lines_closureSections (title : String) (r : Relation) :
    (Report.closureSections title r).flatMap Section.lines =
      (r.pairsOf .direct ++ r.pairsOf .transitive ++ r.pairsOf .reflexive).map r.format := by
  simp [Report.closureSections, Report.pairLines]

theorem Coherent.nodup_format (h : r.Coherent) : (r.pairs.map r.format).Nodup :=
  h.distinct.map_on fun _ hp _ hq heq =>
    format_injective (h.writable _ hp) (h.writable _ hq) heq

end Relation

/-! ### The relations of an analysis -/

theorem Symbol.writable_of_kind {X : Symbol} (h : X.isNonterminal ∨ X.isTerminal) :
    X.Writable := by
  rw [writable_iff]
  rintro rfl
  simp [isNonterminal, isTerminal] at h

namespace Grammar

variable (g : Grammar) (ns : NullableSet)

/-- Pairs of nonterminals and terminals can be put into a relation. -/
theorem built_of_kind {tag : RelationTag} {ps : List Pair}
    (h : ∀ a b, (Relation.ofPairs tag ps).Relates a b →
      (a.isNonterminal ∨ a.isTerminal) ∧ (b.isNonterminal ∨ b.isTerminal)) :
    (Relation.ofPairs tag ps).Built := by
  refine Relation.built_ofPairs tag fun p hp => ?_
  obtain ⟨hleft, hright⟩ := h p.left p.right (Relation.mem_ofPairs.mpr hp)
  exact ⟨Symbol.writable_of_kind hleft, Symbol.writable_of_kind hright⟩

theorem built_beginsDirectlyWith : (g.beginsDirectlyWith ns).Built := by
  refine built_of_kind fun A X h => ?_
  obtain ⟨hA, hX, -⟩ := (relates_beginsDirectlyWith.mp h).kind
  exact ⟨.inl (isNonterminal_of_mem_nonterminals hA), hX⟩

theorem built_beginsWith : (g.beginsWith (g.beginsDirectlyWith ns)).Built := by
  have hbdw := g.built_beginsDirectlyWith ns
  refine .close .beginsWith hbdw fun x hx => ?_
  rcases List.mem_append.mp hx with hx | hx
  · obtain ⟨p, hp, rfl⟩ := List.mem_map.mp (List.mem_eraseDups.mp hx)
    exact (hbdw.coherent.writable p hp).1
  · exact Symbol.writable_of_kind (.inr (mem_terminals.mp hx).2)

theorem built_followedDirectlyBy : (g.followedDirectlyBy ns).Built := by
  refine built_of_kind fun X Y h => ?_
  obtain ⟨hX, -, hY, -⟩ := (relates_followedDirectlyBy.mp h).kind
  exact ⟨.inl hX, hY⟩

theorem kind_of_mem_endAdjacency {p : Pair} (h : p ∈ g.endAdjacency ns) :
    (p.left.isNonterminal ∨ p.left.isTerminal) ∧ (p.right.isNonterminal ∨ p.right.isTerminal) := by
  obtain ⟨-, r, hr, hinside⟩ := mem_endAdjacency.mp h
  obtain ⟨hr, hε⟩ := mem_writtenRules.mp hr
  have hkind := (proper_rhs hr).resolve_left hε
  exact ⟨hkind _ (hinside.subset (by simp)), hkind _ (hinside.subset (by simp))⟩

theorem built_directlyEnds (adjacentEnds : Bool) : (g.directlyEnds ns adjacentEnds).Built := by
  refine built_of_kind fun X A h => ?_
  rcases relates_directlyEnds.mp h with h | ⟨rfl, -, r, hr, rfl⟩ | ⟨-, h⟩
  · obtain ⟨hA, hX, -⟩ := h.kind
    exact ⟨hX, .inl (isNonterminal_of_mem_nonterminals hA)⟩
  · have hlhs := isNonterminal_lhs (mem_writtenRules.mp hr).1
    exact ⟨.inl hlhs, .inl hlhs⟩
  · exact g.kind_of_mem_endAdjacency ns h

theorem built_ends (adjacentEnds : Bool) : (g.ends (g.directlyEnds ns adjacentEnds)).Built :=
  .close .ends (g.built_directlyEnds ns adjacentEnds) fun _ hx =>
    Symbol.writable_of_kind (mem_endUniverse.mp hx).2

end Grammar

namespace Analysis

/-- All relations of an analysis are built. -/
structure Built (a : Analysis) : Prop where
  bdw : a.bdw.Built
  bw : a.bw.Built
  fdb : a.fdb.Built
  deo : a.deo.Built
  eo : a.eo.Built
  fb : a.fb.Built

theorem built_ofConfig (g : Grammar) (c : Config) : (ofConfig g c).Built where
  bdw := g.built_beginsDirectlyWith _
  bw := by
    -- the stage is read off first: otherwise unification unfolds the closure
    dsimp only [ofConfig]
    exact g.built_beginsWith _
  fdb := g.built_followedDirectlyBy _
  deo := g.built_directlyEnds _ _
  eo := g.built_ends _ _
  fb := by
    refine .add (.compose .followedBy fun r hr => ?_) fun p hp => ?_
    · simp only [List.mem_cons, List.not_mem_nil, or_false] at hr
      rcases hr with rfl | rfl | rfl
      · exact g.built_ends _ _
      · exact g.built_followedDirectlyBy _
      · exact g.built_beginsWith _
    · obtain ⟨q, hq, rfl⟩ := List.mem_map.mp hp
      have hkind := of_decide_eq_true (List.mem_filter.mp hq).2
      exact ⟨Symbol.writable_of_kind (.inl hkind.2), ⟨'←', rfl⟩⟩

end Analysis

/-! ### The sections of a closure -/

/-- **Sections.**  The pairs of an origin are those of the sorted pairs that have it, and the lines
of the three sections are those of the pairs in another order. -/
theorem Relation.listed_by_origin {r : Relation} (h : r.Built) :
    r.pairs.Nodup ∧
      (∀ a b, r.contains a b = true ↔ r.origin a b ≠ .unrelated) ∧
      (∀ o, o ≠ .unrelated →
        r.pairsOf o = r.sorted.filter fun p => r.origin p.left p.right = o) ∧
      (r.pairsOf .direct ++ r.pairsOf .transitive ++ r.pairsOf .reflexive).Perm r.pairs ∧
      ∀ title, ((Report.closureSections title r).flatMap Section.lines).Perm
          (r.pairs.map r.format) ∧
        ((Report.closureSections title r).flatMap Section.lines).Nodup := by
  have hr := h.coherent
  refine ⟨hr.distinct, fun a b => contains_iff.trans hr.mem_iff_origin,
    fun o ho => hr.pairsOf_eq ho, hr.perm_pairsOf, fun title => ?_⟩
  have hperm : ((Report.closureSections title r).flatMap Section.lines).Perm
      (r.pairs.map r.format) := by
    rw [lines_closureSections]
    exact hr.perm_pairsOf.map r.format
  exact ⟨hperm, hperm.nodup_iff.mpr hr.nodup_format⟩

/-- With two optional parts `BW` has thirteen pairs, and the three sections show each of them
once. -/
theorem Analysis.optionalParts_listed_by_origin :
    let bw := (ofConfig Grammar.optionalParts .standard).bw
    let lines := (Report.closureSections "BW Relationships" bw).flatMap Section.lines
    bw.Built ∧ lines.length = 13 ∧ lines.Nodup ∧ lines.Perm (bw.pairs.map bw.format) := by
  intro bw lines
  have hbuilt : bw.Built := (built_ofConfig Grammar.optionalParts .standard).bw
  obtain ⟨-, -, -, -, hsections⟩ := Relation.listed_by_origin hbuilt
  obtain ⟨hperm, hnodup⟩ := hsections "BW Relationships"
  have hpairs : bw.pairs.length = 13 := by decide +kernel
  have hlines : lines.length = 13 := by rw [hperm.length_eq, List.length_map, hpairs]
  exact ⟨hbuilt, hlines, hnodup, hperm⟩

end Lookahead
