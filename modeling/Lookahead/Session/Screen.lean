import Lookahead.Report

/-!
# What a session prints

A session prints notices, errors, plain lines and trees.  How each of these appears is left to a
screen, and what is given to the screen is said here.  A report is a heading and its outline as a
tree.
-/

namespace Lookahead

/-- The ways to print: each gives the bytes that are printed for what is to be shown. -/
structure Screen where
  /-- A notice. -/
  notice : List UInt8 → List UInt8
  /-- A line about an error. -/
  problem : List UInt8 → List UInt8
  /-- A line of its own. -/
  plain : List UInt8 → List UInt8
  /-- Lines with the levels that they have in a tree. -/
  tree : List (Nat × String) → List UInt8

namespace Screen

/-- An error; a line of rule text at fault is shown, with a mark below the column. -/
def error (screen : Screen) : Error → List UInt8
  | .rule e =>
    let margin := String.ofList (List.replicate e.span.start.toNat ' ')
    screen.problem e.input ++ screen.problem (Text.bytes (margin ++ "^ " ++ e.fault.message))
  | e => screen.problem e.message

/-- A report. -/
def report (screen : Screen) (rep : Report) : List UInt8 :=
  screen.plain
      (Text.bytes "Grammar " ++ rep.grammar ++ Text.bytes ("  [" ++ rep.fingerprint ++ "]")) ++
    screen.tree rep.outline

/-- Text moved to the right in a column of a given width. -/
def padLeft (width : Nat) (s : String) : String :=
  String.ofList (List.replicate (width - s.length) ' ') ++ s

/-- A numbered rule. -/
def rule (screen : Screen) (r : Rule) : List UInt8 :=
  screen.plain (Text.bytes (padLeft 3 (toString r.serial) ++ "  " ++ r.text))

end Screen

end Lookahead
