/-!
# Sparse matrices of tags

A matrix of small tags in which most places are empty.  Only the written places are kept, as a list
of cells in increasing order of row and column, and a place is looked up by halving this list.  A
place that was never written reads as the null value of the matrix; writing outside the matrix has
no effect.
-/

namespace Lookahead

/-- A written place and its tag. -/
structure Cell where
  row : Int
  col : Int
  tag : Int8
deriving DecidableEq, Repr

namespace Cell

/-- The cell stands before a place in row-major order. -/
def isBefore (c : Cell) (i j : Int) : Bool := c.row < i || (c.row == i && c.col < j)

/-- The cell is the one at a place. -/
def isAt (c : Cell) (i j : Int) : Bool := c.row == i && c.col == j

def text (c : Cell) : String :=
  "(" ++ toString c.row ++ "," ++ toString c.col ++ ")=" ++ toString c.tag.toInt

end Cell

/-- A matrix with a number of rows and columns, a null value and its written cells. -/
structure TagMatrix where
  rows : Int
  cols : Int
  null : Int8
  cells : List Cell
deriving DecidableEq, Repr

namespace TagMatrix

/-- The matrix in which nothing is written. -/
def empty (rows cols : Int) (null : Int8) : TagMatrix := ⟨rows, cols, null, []⟩

/-- The place lies in the matrix. -/
def covers (m : TagMatrix) (i j : Int) : Bool :=
  decide (0 ≤ i ∧ 0 ≤ j ∧ i < m.rows ∧ j < m.cols)

/-- How many cells stand before a place, if these are at least `lo` and at most `hi`.  The cells in
question are halved until none is left. -/
def search (cells : List Cell) (i j : Int) (lo hi : Nat) (hhi : hi ≤ cells.length) : Nat :=
  if h : lo < hi then
    let mid := (lo + hi) / 2
    have hmid : mid < cells.length := by omega
    if cells[mid].isBefore i j then search cells i j (mid + 1) hi hhi
    else search cells i j lo mid (Nat.le_of_lt hmid)
  else lo
termination_by hi - lo

/-- Where a place is among the cells: the number of cells before it. -/
def position (m : TagMatrix) (i j : Int) : Nat :=
  search m.cells i j 0 m.cells.length (Nat.le_refl _)

/-- The cell at a place, if it was written. -/
def cell? (m : TagMatrix) (i j : Int) : Option Cell :=
  m.cells[m.position i j]?.filter fun c => c.isAt i j

/-- The tag at a place, or the null value. -/
def value (m : TagMatrix) (i j : Int) : Int8 :=
  match m.cell? i j with
  | some c => c.tag
  | none => m.null

/-- Puts an entry into a list, before the entry at `k` if there is one.  The list is made one
longer, what stands from `k` on is copied one place to the right, and place `k` is written over. -/
def insertAt {α : Type} (l : List α) (k : Nat) (a : α) : List α :=
  let grown := l ++ [a]
  let copied := grown.take (k + 1) ++ (grown.drop k).take (grown.length - (k + 1))
  copied.set k a

/-- Writes a tag at a place of the matrix, over one that is already there only if asked to, and says
whether it did. -/
def put (m : TagMatrix) (i j : Int) (tag : Int8) (overwrite : Bool) : Bool × TagMatrix :=
  if m.covers i j then
    if (m.cell? i j).isSome then
      if overwrite then
        (true, { m with
          cells := m.cells.modify (m.position i j) fun c => { c with tag := tag } })
      else (false, m)
    else (true, { m with cells := insertAt m.cells (m.position i j) ⟨i, j, tag⟩ })
  else (false, m)

/-- Writes a tag at a place of the matrix. -/
def set (m : TagMatrix) (i j : Int) (tag : Int8) : TagMatrix := (m.put i j tag true).2

/-- Writes a tag at a place that was never written, and says whether it did. -/
def setIfNull (m : TagMatrix) (i j : Int) (tag : Int8) : Bool × TagMatrix := m.put i j tag false

/-- What a walk through the matrix meets: each written place with its tag. -/
def each (m : TagMatrix) : List (Int × Int × Int8) := m.cells.map fun c => (c.row, c.col, c.tag)

/-- How many places carry a tag. -/
def count (m : TagMatrix) (tag : Int8) : Nat := m.cells.countP fun c => c.tag == tag

/-- How many places were written. -/
def valueCount (m : TagMatrix) : Nat := m.cells.length

/-- The matrix as text: its size, then its cells in order. -/
def text (m : TagMatrix) : String :=
  "TagMatrix[" ++ toString m.rows ++ "x" ++ toString m.cols ++ "]\x7b" ++
    " ".intercalate (m.cells.map Cell.text) ++ "\x7d"

end TagMatrix

end Lookahead
