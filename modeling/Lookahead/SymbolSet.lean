import Lookahead.Symbol

/-!
# Sets of symbols

A finite set of symbols, kept as the list of its members in increasing order.  The operations that
enlarge a set also say whether it changed; the fixpoints that fill such sets stop on these answers.
-/

namespace Lookahead

/-- A set of symbols, as the list of its members. -/
structure SymbolSet where
  toList : List Symbol
deriving DecidableEq, Repr

namespace SymbolSet

/-- The set without members. -/
def empty : SymbolSet := ⟨[]⟩

instance : EmptyCollection SymbolSet := ⟨empty⟩

/-- Puts a symbol in its place among increasing ones, once. -/
def insertOrdered (X : Symbol) : List Symbol → List Symbol
  | [] => [X]
  | Y :: rest =>
    if Y < X then Y :: insertOrdered X rest
    else if Y = X then Y :: rest
    else X :: Y :: rest

/-- The set with `X` as a member. -/
def insert (S : SymbolSet) (X : Symbol) : SymbolSet := ⟨insertOrdered X S.toList⟩

/-- The set with all of `syms` as members. -/
def insertAll (S : SymbolSet) (syms : List Symbol) : SymbolSet := syms.foldl insert S

/-- The set of the given symbols. -/
def ofList (syms : List Symbol) : SymbolSet := empty.insertAll syms

def contains (S : SymbolSet) (X : Symbol) : Bool := S.toList.contains X

instance : Membership Symbol SymbolSet where
  mem S X := X ∈ S.toList

instance (X : Symbol) (S : SymbolSet) : Decidable (X ∈ S) :=
  inferInstanceAs (Decidable (X ∈ S.toList))

def size (S : SymbolSet) : Nat := S.toList.length

def isEmpty (S : SymbolSet) : Bool := S.toList.isEmpty

/-- Adds symbols, and says whether the set changed. -/
def add (S : SymbolSet) (syms : List Symbol) : Bool × SymbolSet :=
  let T := S.insertAll syms
  (T.size != S.size, T)

/-- The members that a union takes over: all of them, or all but `ϵ`. -/
def offered (S : SymbolSet) (withEpsilon : Bool) : List Symbol :=
  S.toList.filter fun X => withEpsilon || !X.isEpsilon

/-- The members of both sets, `ϵ` taken over from the second one only if asked for. -/
def union (S T : SymbolSet) (withEpsilon : Bool) : SymbolSet :=
  S.insertAll (T.offered withEpsilon)

/-- Adds the members of another set, and says whether the set changed. -/
def addAll (S T : SymbolSet) (withEpsilon : Bool) : Bool × SymbolSet :=
  S.add (T.offered withEpsilon)

/-- The common members of two sets, in increasing order. -/
def intersection (S T : SymbolSet) : List Symbol := S.toList.filter T.contains

/-- Whether two sets have the same members. -/
def equals (S T : SymbolSet) : Bool := S.size == T.size && S.toList.all T.contains

/-- A set in braces, its members separated by commas. -/
def text (S : SymbolSet) : String :=
  "\x7b" ++ ", ".intercalate (S.toList.map Symbol.text) ++ "\x7d"

/-! ### Members -/

theorem contains_iff {S : SymbolSet} {X : Symbol} : S.contains X = true ↔ X ∈ S :=
  List.contains_iff_mem

@[simp] theorem not_mem_empty (X : Symbol) : X ∉ empty := List.not_mem_nil

theorem mem_insertOrdered {X Y : Symbol} {l : List Symbol} :
    Y ∈ insertOrdered X l ↔ Y = X ∨ Y ∈ l := by
  induction l with
  | nil => exact List.mem_cons
  | cons Z rest ih =>
    unfold insertOrdered
    split
    · rw [List.mem_cons, ih, List.mem_cons]
      exact or_left_comm
    · split
      · rename_i h
        rw [h, List.mem_cons]
        exact or_self_left.symm
      · exact List.mem_cons

@[simp] theorem mem_insert {S : SymbolSet} {X Y : Symbol} : Y ∈ S.insert X ↔ Y = X ∨ Y ∈ S :=
  mem_insertOrdered

@[simp] theorem mem_insertAll {S : SymbolSet} {syms : List Symbol} {Y : Symbol} :
    Y ∈ S.insertAll syms ↔ Y ∈ syms ∨ Y ∈ S := by
  induction syms generalizing S with
  | nil => simp [insertAll]
  | cons X rest ih =>
    rw [insertAll, List.foldl_cons, ← insertAll, ih, mem_insert, List.mem_cons]
    exact or_left_comm.trans or_assoc.symm

@[simp] theorem mem_ofList {syms : List Symbol} {Y : Symbol} : Y ∈ ofList syms ↔ Y ∈ syms := by
  simp [ofList]

theorem mem_offered {S : SymbolSet} {withEpsilon : Bool} {Y : Symbol} :
    Y ∈ S.offered withEpsilon ↔ Y ∈ S ∧ (withEpsilon ∨ ¬ Y.isEpsilon) := by
  rw [offered, List.mem_filter, Bool.or_eq_true, Bool.not_eq_true', Bool.not_eq_true]
  exact Iff.rfl

@[simp] theorem mem_union {S T : SymbolSet} {withEpsilon : Bool} {Y : Symbol} :
    Y ∈ S.union T withEpsilon ↔ (Y ∈ T ∧ (withEpsilon ∨ ¬ Y.isEpsilon)) ∨ Y ∈ S := by
  rw [union, mem_insertAll, mem_offered]

@[simp] theorem mem_intersection {S T : SymbolSet} {X : Symbol} :
    X ∈ S.intersection T ↔ X ∈ S ∧ X ∈ T := by
  rw [intersection, List.mem_filter, contains_iff]
  exact Iff.rfl

end SymbolSet

end Lookahead
