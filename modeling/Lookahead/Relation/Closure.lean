import Lookahead.Relation.Basic
import Lookahead.Saturation

/-!
# Closure and join

The closure of a relation adds, pass by pass, every pair that two pairs of the relation join to, and
then relates each symbol of a universe to itself.  What a pass joins is fixed when the pass begins.
The join of several relations links a pair of the first to a pair of the second, and so on to the
last; between two relations the linked pairs are kept once each, in the order in which they arise.
-/

namespace Lookahead.Relation

/-- The pairs that `ps` and a relation behind it join to, in order and with repetitions. -/
def joined (ps : List Pair) (r : Relation) : List Pair :=
  ps.flatMap fun p => (r.image p.right).map fun c => ⟨p.left, c⟩

/-- One pass: adds all pairs that two pairs of the relation join to. -/
def closePass (r : Relation) : Relation := r.insertAll (joined r.pairs r) .transitive

/-- More passes than any relation between symbols can take. -/
def passLimit : Nat := (Symbol.count + 1) * (Symbol.count + 1) + 1

/-- Adds pairs until the relation is transitive. -/
def closeTransitive (r : Relation) : Relation := saturate closePass size passLimit r

/-- The transitive closure of a relation, made reflexive over a universe without `ϵ`.  The pairs of
the seed come first and count as direct. -/
def close (seed : Relation) (tag : RelationTag) (univ : List Symbol) : Relation :=
  let reached := closeTransitive (ofPairs tag seed.pairs)
  reached.insertAll ((univ.filter fun x => !x.isEpsilon).map fun x => ⟨x, x⟩) .reflexive

/-- The pairs of `ps` carried on through the given relations. -/
def chain (ps : List Pair) (rs : List Relation) : List Pair :=
  rs.foldl (fun qs r => (joined qs r).eraseDups) ps

/-- The join of several relations, all of its pairs direct; joining nothing gives nothing. -/
def compose (tag : RelationTag) : List Relation → Relation
  | [] => empty tag
  | r :: rs => ofPairs tag (chain r.pairs rs)

end Lookahead.Relation
