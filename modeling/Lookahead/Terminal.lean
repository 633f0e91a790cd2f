import Lookahead.Session.Screen
import Lookahead.Text.Lines
import Lookahead.Text.Markup

/-!
# The terminal

The screen of a terminal without colours.  Notices and errors are lines behind a mark.  An error can
repeat what was typed, so its lines are shown without markup.  In a tree a line of level zero is a
branch, the lines behind it are its leaves, and an empty line ends the tree.
-/

namespace Lookahead.Terminal

/-- A line. -/
def plain (text : List UInt8) : List UInt8 := text ++ [Text.lineFeed]

/-- A notice. -/
def notice (text : List UInt8) : List UInt8 := plain (Text.bytes "   >>  " ++ text)

/-- A line about an error. -/
def problem (text : List UInt8) : List UInt8 :=
  plain (Text.bytes "   Error  " ++ Text.shown text)

/-- The branches of an outline, with their leaves. -/
def branches (outline : List (Nat × String)) : List (String × List String) :=
  (outline.foldr (fun item found =>
    if item.1 = 0 then ([], (item.2, found.1) :: found.2)
    else (item.2 :: found.1, found.2)) ([], [])).2

/-- The leaves of a branch, behind the margin of the branch. -/
def drawLeaves (margin : String) : List String → List String
  | [] => []
  | [l] => [margin ++ "└──" ++ l]
  | l :: rest => (margin ++ "├──" ++ l) :: drawLeaves margin rest

/-- Branches with their leaves. -/
def drawBranches : List (String × List String) → List String
  | [] => []
  | [b] => ("└─┬" ++ b.1) :: drawLeaves "  " b.2
  | b :: rest => ("├─┬" ++ b.1) :: drawLeaves "│ " b.2 ++ drawBranches rest

/-- An outline as a tree. -/
def tree (outline : List (Nat × String)) : List UInt8 :=
  (drawBranches (branches outline) ++ [""]).flatMap fun l => plain (Text.bytes l)

/-- The terminal as a screen. -/
def screen : Screen := ⟨notice, problem, plain, tree⟩

end Lookahead.Terminal
