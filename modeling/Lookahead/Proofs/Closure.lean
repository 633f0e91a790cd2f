import Mathlib.Data.List.Nodup
import Mathlib.Data.List.Perm.Subperm
import Mathlib.Logic.Relation
import Lookahead.Proofs.Growth
import Lookahead.Relation.Closure

/-!
# Closures and joins of relations

`Relates r` is the relation that the pairs of `r` make up.  There are 55 symbols with the absent
one, hence 3025 pairs, and a relation holds each of them once, so the passes of the closure end with
a transitive relation.

**The closure** (`mem_close`).  A pair is in the closure of a seed when a chain of one or more pairs
of the seed leads from its left to its right side, or when it relates a symbol of the universe other
than `ϵ` to itself.

**The join** (`mem_compose`).  A pair is in the join of one or more relations when a chain of pairs,
one of each relation in turn, leads from its left to its right side.
-/

namespace Lookahead

/-! ### All symbols -/

namespace Symbol

/-- Every symbol once, the absent one first. -/
def all : List Symbol := .absent :: (List.range count).map fun i : Nat => atIndex i

theorem mem_all (X : Symbol) : X ∈ all := by
  cases X with
  | absent => exact List.mem_cons_self
  | nonterminal i => revert i; decide
  | terminal i => revert i; decide
  | epsilon => decide
  | endMarker => decide

theorem length_all : all.length = count + 1 := by simp [all]

end Symbol

/-- Every pair of symbols once. -/
def Pair.all : List Pair := Symbol.all.flatMap fun a => Symbol.all.map fun b => ⟨a, b⟩

theorem Pair.mem_all (p : Pair) : p ∈ Pair.all :=
  List.mem_flatMap.mpr
    ⟨p.left, Symbol.mem_all _, List.mem_map.mpr ⟨p.right, Symbol.mem_all _, rfl⟩⟩

theorem Pair.length_all : Pair.all.length = (Symbol.count + 1) * (Symbol.count + 1) := by
  simp [Pair.all, List.length_flatMap, Symbol.length_all]

namespace Relation

/-- `r` relates `a` to `b`. -/
def Relates (r : Relation) (a b : Symbol) : Prop := (⟨a, b⟩ : Pair) ∈ r

/-! ### Relations hold each pair once -/

/-- Each pair is held once. -/
def Distinct (r : Relation) : Prop := r.pairs.Nodup

/-- There is no room for more pairs than there are. -/
theorem Distinct.size_le {r : Relation} (h : r.Distinct) :
    r.size ≤ (Symbol.count + 1) * (Symbol.count + 1) := by
  have hsub : r.pairs ⊆ Pair.all := fun p _ => Pair.mem_all p
  have hle : r.pairs.length ≤ Pair.all.length := (List.Nodup.subperm h hsub).length_le
  rwa [Pair.length_all] at hle

theorem grows_insert (p : Pair) (origin : Origin) :
    Grows Distinct size fun r => r.insert p origin where
  keeps r hr := by
    unfold insert
    split
    · exact hr
    · rename_i hp
      have hp' : p ∉ r.pairs := fun h => hp (List.contains_iff_mem.mpr h)
      exact List.Nodup.append hr (List.nodup_singleton p) (by simpa using hp')
  le r _ := by
    unfold insert
    split <;> simp [size]
  fixed r _ h := by
    unfold insert at h ⊢
    split at h
    · exact if_pos ‹_›
    · simp only [size, List.length_append, List.length_singleton] at h
      omega

theorem grows_insertAll (ps : List Pair) (origin : Origin) :
    Grows Distinct size fun r => r.insertAll ps origin :=
  Grows.foldl fun p _ => grows_insert p origin

theorem distinct_empty (tag : RelationTag) : (empty tag).Distinct := List.nodup_nil

theorem distinct_ofPairs (tag : RelationTag) (ps : List Pair) : (ofPairs tag ps).Distinct :=
  (grows_insertAll ps .direct).keeps _ (distinct_empty tag)

/-! ### Joining pairs -/

theorem mem_joined {ps : List Pair} {r : Relation} {a c : Symbol} :
    ⟨a, c⟩ ∈ joined ps r ↔ ∃ b, (⟨a, b⟩ : Pair) ∈ ps ∧ r.Relates b c := by
  simp only [joined, List.mem_flatMap, List.mem_map, mem_image, Pair.mk.injEq]
  refine ⟨?_, ?_⟩
  · rintro ⟨⟨x, b⟩, hp, c', hc, rfl, rfl⟩
    exact ⟨b, hp, hc⟩
  · rintro ⟨b, hp, hc⟩
    exact ⟨⟨a, b⟩, hp, c, hc, rfl, rfl⟩

/-- The relations link `a` to `z`: a pair of the first leads from `a` to some symbol, a pair of the
second leads on from there, and so on until a pair of the last one leads to `z`. -/
def Linked : List Relation → Symbol → Symbol → Prop
  | [], a, z => a = z
  | r :: rs, a, z => ∃ b, r.Relates a b ∧ Linked rs b z

theorem linked_append {rs ss : List Relation} {a z : Symbol} :
    Linked (rs ++ ss) a z ↔ ∃ b, Linked rs a b ∧ Linked ss b z := by
  induction rs generalizing a with
  | nil => simp [Linked]
  | cons r rest ih =>
      simp only [List.cons_append, Linked, ih]
      refine ⟨?_, ?_⟩
      · rintro ⟨b, hab, c, hbc, hcz⟩
        exact ⟨c, ⟨b, hab, hbc⟩, hcz⟩
      · rintro ⟨c, ⟨b, hab, hbc⟩, hcz⟩
        exact ⟨b, hab, c, hbc, hcz⟩

/-- Pairs carried on through relations are pairs that the relations link on. -/
theorem mem_chain {ps : List Pair} {rs : List Relation} {a z : Symbol} :
    ⟨a, z⟩ ∈ chain ps rs ↔ ∃ b, (⟨a, b⟩ : Pair) ∈ ps ∧ Linked rs b z := by
  induction rs generalizing ps with
  | nil => simp [chain, Linked]
  | cons r rest ih =>
      have hstep : chain ps (r :: rest) = chain (joined ps r).eraseDups rest := rfl
      simp only [hstep, ih, List.mem_eraseDups, mem_joined, Linked]
      refine ⟨?_, ?_⟩
      · rintro ⟨c, ⟨b, hab, hbc⟩, hcz⟩
        exact ⟨b, hab, c, hbc, hcz⟩
      · rintro ⟨b, hab, c, hbc, hcz⟩
        exact ⟨c, ⟨b, hab, hbc⟩, hcz⟩

/-- **The join.**  Of one or more relations it holds the pairs that they link. -/
theorem mem_compose {tag : RelationTag} {rs : List Relation} {a z : Symbol} :
    ⟨a, z⟩ ∈ compose tag rs ↔ rs ≠ [] ∧ Linked rs a z := by
  cases rs with
  | nil => simp [compose]
  | cons r rest =>
      rw [compose, mem_ofPairs, mem_chain]
      exact (and_iff_right (List.cons_ne_nil r rest)).symm

theorem mem_compose_three {tag : RelationTag} {r s t : Relation} {a z : Symbol} :
    ⟨a, z⟩ ∈ compose tag [r, s, t] ↔ ∃ b c, r.Relates a b ∧ s.Relates b c ∧ t.Relates c z := by
  simp [mem_compose, Linked]

/-! ### Transitive closure -/

theorem mem_closePass {r : Relation} {a c : Symbol} :
    ⟨a, c⟩ ∈ closePass r ↔ (∃ b, r.Relates a b ∧ r.Relates b c) ∨ r.Relates a c := by
  rw [closePass, mem_insertAll, mem_joined]
  rfl

theorem grows_closePass : Grows Distinct size closePass where
  keeps r hr := (grows_insertAll (joined r.pairs r) .transitive).keeps r hr
  le r hr := (grows_insertAll (joined r.pairs r) .transitive).le r hr
  fixed r hr h := (grows_insertAll (joined r.pairs r) .transitive).fixed r hr h

/-- The passes end with a relation to which a pass adds nothing. -/
theorem closePass_closeTransitive {r : Relation} (hr : r.Distinct) :
    closePass (closeTransitive r) = closeTransitive r :=
  grows_closePass.step_saturate (fun _ hs => hs.size_le) hr (by simp only [passLimit]; omega)

theorem Relates.trans_closeTransitive {r : Relation} (hr : r.Distinct) {a b c : Symbol}
    (hab : (closeTransitive r).Relates a b) (hbc : (closeTransitive r).Relates b c) :
    (closeTransitive r).Relates a c := by
  have h : ⟨a, c⟩ ∈ closePass (closeTransitive r) := mem_closePass.mpr (.inl ⟨b, hab, hbc⟩)
  rwa [closePass_closeTransitive hr] at h

theorem Relates.closeTransitive {r : Relation} {a b : Symbol} (h : r.Relates a b) :
    (closeTransitive r).Relates a b :=
  saturate_induction (P := fun s : Relation => s.Relates a b)
    (fun _ hs => mem_closePass.mpr (.inr hs)) _ h

/-- **The passes compute the transitive closure.** -/
theorem relates_closeTransitive {r : Relation} (hr : r.Distinct) {a b : Symbol} :
    (closeTransitive r).Relates a b ↔ Relation.TransGen r.Relates a b := by
  refine ⟨?_, ?_⟩
  · -- a pass links two chains to one
    have hpass : ∀ s : Relation, (∀ x y, s.Relates x y → Relation.TransGen r.Relates x y) →
        ∀ x y, (closePass s).Relates x y → Relation.TransGen r.Relates x y := by
      intro s hs x z hxz
      rcases mem_closePass.mp hxz with ⟨y, hxy, hyz⟩ | hxz
      · exact (hs x y hxy).trans (hs y z hyz)
      · exact hs x z hxz
    exact saturate_induction hpass passLimit (fun _ _ h => .single h) a b
  · intro h
    induction h with
    | single h => exact h.closeTransitive
    | tail _ h ih => exact ih.trans_closeTransitive hr h.closeTransitive

/-! ### Closure over a universe -/

/-- Before it is made reflexive the closure of a seed is its transitive closure. -/
theorem relates_reached {seed : Relation} {tag : RelationTag} {a b : Symbol} :
    (closeTransitive (ofPairs tag seed.pairs)).Relates a b ↔
      Relation.TransGen seed.Relates a b := by
  have hseed : (ofPairs tag seed.pairs).Relates = seed.Relates := by
    funext x y
    exact propext mem_ofPairs
  rw [relates_closeTransitive (distinct_ofPairs tag _), hseed]

/-- What the closure relates to itself. -/
theorem mem_diagonal {univ : List Symbol} {a b : Symbol} :
    ⟨a, b⟩ ∈ (univ.filter fun x => !x.isEpsilon).map (fun x => (⟨x, x⟩ : Pair)) ↔
      a = b ∧ a ∈ univ ∧ ¬ a.isEpsilon := by
  simp only [List.mem_map, List.mem_filter, Pair.mk.injEq, Bool.not_eq_true', Bool.not_eq_true]
  refine ⟨?_, ?_⟩
  · rintro ⟨x, ⟨hx, hε⟩, rfl, rfl⟩
    exact ⟨rfl, hx, hε⟩
  · rintro ⟨rfl, hx, hε⟩
    exact ⟨a, ⟨hx, hε⟩, rfl, rfl⟩

/-- **The closure of a seed.**  A chain of pairs of the seed, or a symbol of the universe other than
`ϵ` with itself. -/
theorem mem_close {seed : Relation} {tag : RelationTag} {univ : List Symbol} {a b : Symbol} :
    (seed.close tag univ).Relates a b ↔
      Relation.TransGen seed.Relates a b ∨ a = b ∧ a ∈ univ ∧ ¬ a.isEpsilon := by
  rw [Relates, close, mem_insertAll, mem_diagonal, or_comm]
  exact or_congr relates_reached Iff.rfl

/-- Where the universe has all it should, the closure is reflexive and transitive. -/
theorem mem_close_iff_reflTransGen {seed : Relation} {tag : RelationTag} {univ : List Symbol}
    {a b : Symbol} (h : a = b → a ∈ univ ∧ ¬ a.isEpsilon) :
    (seed.close tag univ).Relates a b ↔ Relation.ReflTransGen seed.Relates a b := by
  rw [mem_close, Relation.reflTransGen_iff_eq_or_transGen]
  refine ⟨?_, ?_⟩
  · rintro (h | ⟨rfl, -⟩)
    · exact .inr h
    · exact .inl rfl
  · rintro (rfl | hab)
    · exact .inr ⟨rfl, h rfl⟩
    · exact .inl hab

end Relation

end Lookahead
