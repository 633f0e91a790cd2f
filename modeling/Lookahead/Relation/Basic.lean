import Lookahead.Symbol
import Lookahead.TagMatrix

/-!
# Relations between symbols

A relation holds its pairs in the order in which they came, each once, together with a matrix that
says how each pair came: it was put there directly, it follows by transitivity, or it is there
because the relation was made reflexive.  The matrix is addressed by symbol indices, so a pair with
an absent symbol is held without an origin.
-/

namespace Lookahead

/-- An ordered pair of symbols. -/
structure Pair where
  left : Symbol
  right : Symbol
deriving DecidableEq, Repr

namespace Pair

/-- A pair as text, `(left,right)`. -/
def text (p : Pair) : String := "(" ++ p.left.text ++ "," ++ p.right.text ++ ")"

/-- Pairs are ordered by their left symbols, then by their right ones. -/
instance : LT Pair where
  lt p q := p.left < q.left ∨ ¬ q.left < p.left ∧ p.right < q.right

instance (p q : Pair) : Decidable (p < q) := inferInstanceAs (Decidable (_ ∨ _))

/-- Puts a pair in its place among ordered ones, before those that are equal to it. -/
def insertOrdered (p : Pair) : List Pair → List Pair
  | [] => [p]
  | q :: rest => if q < p then q :: insertOrdered p rest else p :: q :: rest

/-- Pairs in increasing order. -/
def sort (ps : List Pair) : List Pair := ps.foldr insertOrdered []

theorem mem_insertOrdered {p q : Pair} {l : List Pair} :
    q ∈ insertOrdered p l ↔ q = p ∨ q ∈ l := by
  induction l with
  | nil => exact List.mem_cons
  | cons x rest ih =>
    unfold insertOrdered
    split
    · rw [List.mem_cons, ih, List.mem_cons]
      exact or_left_comm
    · exact List.mem_cons

@[simp] theorem mem_sort {p : Pair} {ps : List Pair} : p ∈ sort ps ↔ p ∈ ps := by
  induction ps with
  | nil => exact Iff.rfl
  | cons q rest ih => rw [sort, List.foldr_cons, mem_insertOrdered, ← sort, ih, List.mem_cons]

end Pair

/-- What a relation is called. -/
inductive RelationTag where
  /-- `A BDW X`: a production of `A` has `X` behind nothing but nullable symbols. -/
  | beginsDirectlyWith
  /-- `A BW X`: the closure of `BDW`. -/
  | beginsWith
  /-- `X FDB Y`: a production has `Y` behind `X`, with nothing but nullable symbols between. -/
  | followedDirectlyBy
  /-- `X DEO A`: a production of `A` has `X` before nothing but nullable symbols. -/
  | directlyEnds
  /-- `X EO A`: the closure of `DEO`. -/
  | ends
  /-- `X FB Y`: `Y` may come right behind `X`. -/
  | followedBy
  /-- A relation without a name, by its number. -/
  | unnamed (code : Int8)
deriving DecidableEq, Repr

namespace RelationTag

def ofCode (code : Int8) : RelationTag :=
  if code = 1 then .beginsDirectlyWith
  else if code = 2 then .beginsWith
  else if code = 3 then .followedDirectlyBy
  else if code = 4 then .directlyEnds
  else if code = 5 then .ends
  else if code = 6 then .followedBy
  else .unnamed code

def code : RelationTag → Int8
  | .beginsDirectlyWith => 1
  | .beginsWith => 2
  | .followedDirectlyBy => 3
  | .directlyEnds => 4
  | .ends => 5
  | .followedBy => 6
  | .unnamed code => code

/-- The short name used in reports. -/
def abbreviation : RelationTag → String
  | .beginsDirectlyWith => "BDW"
  | .beginsWith => "BW"
  | .followedDirectlyBy => "FDB"
  | .directlyEnds => "DEO"
  | .ends => "EO"
  | .followedBy => "FB"
  | .unnamed _ => "?"

def name : RelationTag → String
  | .beginsDirectlyWith => "BeginsDirectlyWith"
  | .beginsWith => "BeginsWith"
  | .followedDirectlyBy => "FollowedDirectlyBy"
  | .directlyEnds => "DirectlyEndsWith"
  | .ends => "EndsWith"
  | .followedBy => "FollowedBy"
  | .unnamed _ => "<none>"

end RelationTag

/-- How a pair came into a relation. -/
inductive Origin where
  /-- The pair is not there, or no origin was kept. -/
  | unrelated
  | direct
  | transitive
  | reflexive
deriving DecidableEq, Repr

namespace Origin

def code : Origin → Int8
  | .unrelated => 0
  | .direct => 1
  | .transitive => 2
  | .reflexive => 3

def ofCode (code : Int8) : Origin :=
  if code = 1 then .direct
  else if code = 2 then .transitive
  else if code = 3 then .reflexive
  else .unrelated

@[simp] theorem ofCode_code (o : Origin) : ofCode o.code = o := by cases o <;> rfl

def name : Origin → String
  | .unrelated => "none"
  | .direct => "direct"
  | .transitive => "transitive"
  | .reflexive => "reflexive"

end Origin

/-- A finite relation between symbols. -/
structure Relation where
  tag : RelationTag
  /-- The pairs in order of insertion. -/
  pairs : List Pair
  /-- The origin of each pair, at the indices of its symbols. -/
  origins : TagMatrix
deriving DecidableEq, Repr

namespace Relation

/-- The relation without pairs. -/
def empty (tag : RelationTag) : Relation :=
  ⟨tag, [], TagMatrix.empty Symbol.count Symbol.count Origin.unrelated.code⟩

def contains (r : Relation) (a b : Symbol) : Bool := r.pairs.contains ⟨a, b⟩

instance : Membership Pair Relation where
  mem r p := p ∈ r.pairs

instance (p : Pair) (r : Relation) : Decidable (p ∈ r) :=
  inferInstanceAs (Decidable (p ∈ r.pairs))

/-- Puts a pair at the end, unless it is there already. -/
def insert (r : Relation) (p : Pair) (origin : Origin) : Relation :=
  if r.pairs.contains p then r
  else
    { r with
      pairs := r.pairs ++ [p]
      origins := (r.origins.setIfNull p.left.index p.right.index origin.code).2 }

/-- Puts pairs at the end, in order. -/
def insertAll (r : Relation) (ps : List Pair) (origin : Origin) : Relation :=
  ps.foldl (fun s p => s.insert p origin) r

/-- The relation with the given pairs, all of them direct. -/
def ofPairs (tag : RelationTag) (ps : List Pair) : Relation := (empty tag).insertAll ps .direct

def size (r : Relation) : Nat := r.pairs.length

def isEmpty (r : Relation) : Bool := r.pairs.isEmpty

/-- Adds direct pairs, and says how many of them are new. -/
def add (r : Relation) (ps : List Pair) : Nat × Relation :=
  let s := r.insertAll ps .direct
  (s.size - r.size, s)

/-- How a pair came into the relation. -/
def origin (r : Relation) (a b : Symbol) : Origin :=
  Origin.ofCode (r.origins.value a.index b.index)

/-- The pairs of an origin, ordered by the indices of their symbols. -/
def pairsOf (r : Relation) (origin : Origin) : List Pair :=
  (r.origins.cells.filter fun c => c.tag == origin.code).map fun c =>
    ⟨.atIndex c.row, .atIndex c.col⟩

/-- All pairs in increasing order. -/
def sorted (r : Relation) : List Pair := Pair.sort r.pairs

/-- What `a` is related to, in order of insertion. -/
def image (r : Relation) (a : Symbol) : List Symbol :=
  (r.pairs.filter fun p => p.left = a).map Pair.right

/-- The left sides of the pairs, in order of first appearance. -/
def lefts (r : Relation) : List Symbol := (r.pairs.map Pair.left).eraseDups

/-- Related symbols with the short name of the relation between them. -/
def format (r : Relation) (p : Pair) : String :=
  p.left.text ++ " " ++ r.tag.abbreviation ++ " " ++ p.right.text

/-- Whether `a` is related to `c` as soon as both are related through some `b`. -/
def isTransitive (r : Relation) : Bool :=
  r.pairs.all fun p => (r.image p.right).all fun c => r.contains p.left c

/-- Whether every symbol of the universe but `ϵ` is related to itself. -/
def isReflexiveOver (r : Relation) (univ : List Symbol) : Bool :=
  univ.all fun x => x.isEpsilon || r.contains x x

/-- The short name of the relation and its pairs in braces. -/
def text (r : Relation) : String :=
  r.tag.abbreviation ++ "\x7b" ++ " ".intercalate (r.pairs.map Pair.text) ++ "\x7d"

/-! ### Members -/

theorem contains_iff {r : Relation} {a b : Symbol} : r.contains a b = true ↔ ⟨a, b⟩ ∈ r :=
  List.contains_iff_mem

@[simp] theorem not_mem_empty (tag : RelationTag) (p : Pair) : p ∉ empty tag := List.not_mem_nil

@[simp] theorem mem_insert {r : Relation} {p q : Pair} {origin : Origin} :
    q ∈ r.insert p origin ↔ q = p ∨ q ∈ r := by
  unfold insert
  split
  · rename_i h
    exact ⟨Or.inr, Or.rec (fun e => e ▸ List.contains_iff_mem.mp h) id⟩
  · change q ∈ r.pairs ++ [p] ↔ q = p ∨ q ∈ r.pairs
    rw [List.mem_append, List.mem_singleton]
    exact or_comm

@[simp] theorem mem_insertAll {r : Relation} {ps : List Pair} {origin : Origin} {q : Pair} :
    q ∈ r.insertAll ps origin ↔ q ∈ ps ∨ q ∈ r := by
  induction ps generalizing r with
  | nil => simp [insertAll]
  | cons p rest ih =>
    rw [insertAll, List.foldl_cons, ← insertAll, ih, mem_insert, List.mem_cons]
    exact or_left_comm.trans or_assoc.symm

@[simp] theorem mem_ofPairs {tag : RelationTag} {ps : List Pair} {q : Pair} :
    q ∈ ofPairs tag ps ↔ q ∈ ps := by
  simp [ofPairs]

@[simp] theorem mem_image {r : Relation} {a b : Symbol} : b ∈ r.image a ↔ ⟨a, b⟩ ∈ r := by
  constructor
  · intro h
    obtain ⟨p, hp, rfl⟩ := List.mem_map.mp h
    rw [List.mem_filter] at hp
    have hleft : p.left = a := of_decide_eq_true hp.2
    exact hleft ▸ hp.1
  · intro h
    exact List.mem_map.mpr ⟨⟨a, b⟩, List.mem_filter.mpr ⟨h, decide_eq_true rfl⟩, rfl⟩

end Relation

end Lookahead
