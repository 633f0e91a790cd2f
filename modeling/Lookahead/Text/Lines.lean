/-!
# Lines

A text is a run of bytes, and it splits into lines at its line feeds.  There is always one line more
than there are line feeds, so the empty text is one empty line, and a line feed at the end begins
another.
-/

namespace Lookahead.Text

/-- The byte between two lines. -/
def lineFeed : UInt8 := 0x0A

/-- The first line of a text, and the lines behind it. -/
def splitFirst (text : List UInt8) : List UInt8 × List (List UInt8) :=
  text.foldr (fun b found =>
    if b = lineFeed then ([], found.1 :: found.2) else (b :: found.1, found.2)) ([], [])

/-- The lines of a text. -/
def lines (text : List UInt8) : List (List UInt8) := (splitFirst text).1 :: (splitFirst text).2

theorem lines_nil : lines [] = [[]] := rfl

theorem lines_lineFeed_cons (text : List UInt8) : lines (lineFeed :: text) = [] :: lines text := by
  simp [lines, splitFirst]

theorem lines_cons {b : UInt8} (hb : b ≠ lineFeed) (text : List UInt8) :
    lines (b :: text) = (b :: (splitFirst text).1) :: (splitFirst text).2 := by
  simp [lines, splitFirst, hb]

/-- Joining the lines by line feeds gives the text back. -/
theorem intercalate_lines (text : List UInt8) : [lineFeed].intercalate (lines text) = text := by
  induction text with
  | nil => rfl
  | cons b text ih =>
    by_cases hb : b = lineFeed
    · rw [hb, lines_lineFeed_cons, lines, List.intercalate_cons_cons, ← lines, ih]
      rfl
    · rw [lines_cons hb]
      rw [lines] at ih
      cases hrest : (splitFirst text).2 with
      | nil => simpa [hrest] using ih
      | cons l ls =>
        rw [hrest, List.intercalate_cons_cons] at ih
        rw [List.intercalate_cons_cons, List.cons_append, List.cons_append, ih]

end Lookahead.Text
