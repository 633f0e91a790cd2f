/-!
# Spans

A run of columns within a line: where it starts, and the column just behind its end.  Columns count
bytes.  Lengths are signed words of 64 bits, so a span between two far ends may have a length that
has wrapped around.
-/

namespace Lookahead

/-- The columns from `start` up to, and not including, `stop`. -/
structure Span where
  start : Int
  stop : Int
deriving DecidableEq, Repr

namespace Span

/-- The length, as a signed word of 64 bits. -/
def length (s : Span) : Int := (s.stop - s.start).bmod Int64.size

/-- A span as text, `(start…stop)`. -/
def text (s : Span) : String :=
  "(" ++ toString s.start ++ "…" ++ toString s.stop ++ ")"

end Span

end Lookahead
