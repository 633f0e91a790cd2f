import Lookahead.Analysis

/-!
# Reports

A report lists the results of an analysis, stage by stage, in titled sections of lines.  Closures
take three sections, one for each way a pair came into them.  Conflicts are listed only if there are
any.
-/

namespace Lookahead

/-- A titled part of a report. -/
structure Section where
  title : String
  lines : List String
deriving DecidableEq, Repr

/-- The results of an analysis as text. -/
structure Report where
  /-- The name of the grammar. -/
  grammar : List UInt8
  fingerprint : String
  sections : List Section
deriving DecidableEq, Repr

namespace Report

/-! ### Making reports -/

/-- The pairs of a relation as lines. -/
def pairLines (r : Relation) (ps : List Pair) : List String := ps.map r.format

/-- The section with all pairs of a relation. -/
def relationSection (title : String) (r : Relation) : Section := ⟨title, pairLines r r.pairs⟩

/-- The sections of a closure, by origin. -/
def closureSections (title : String) (r : Relation) : List Section :=
  [Origin.direct, .transitive, .reflexive].map fun o =>
    ⟨title ++ " / " ++ o.name, pairLines r (r.pairsOf o)⟩

/-- FIRST of the right sides of all rules that say more than `ϵ`. -/
def rightSideLines (a : Analysis) : List String :=
  a.grammar.writtenRules.map fun r =>
    "First(" ++ r.rhs.text ++ ") = " ++ (a.first.ofSequence r.rhs).text

/-- The conflicts, in a section of their own if there are any. -/
def conflictSections (a : Analysis) : List Section :=
  match a.conflicts with
  | [] => []
  | found => [⟨"Select Conflicts", found.map Conflict.text⟩]

/-- All sections in order. -/
def sectionsOf (a : Analysis) : List Section :=
  [⟨"Nullable Rules", a.nullable.lines⟩,
    ⟨"Nullable Nonterminals", a.nullable.nonterminals.map Symbol.text⟩,
    relationSection "BDW Relationships" a.bdw] ++
  closureSections "BW Relationships" a.bw ++
  [⟨"First Sets", a.first.lines⟩,
    ⟨"First of Right Side", rightSideLines a⟩,
    relationSection "FDB Relationships" a.fdb,
    relationSection "DEO Relationships" a.deo] ++
  closureSections "EO Relationships" a.eo ++
  [relationSection "FB Relationships" a.fb,
    ⟨"Follow Sets of Nullable Nonterminals", a.follow.lines⟩,
    ⟨"Select Sets", a.select.lines⟩] ++
  conflictSections a

/-- The report on an analysis, fingerprinted under a digest. -/
def ofAnalysis (digest : String → String) (a : Analysis) : Report :=
  ⟨a.grammar.name, a.grammar.fingerprint digest, sectionsOf a⟩

/-! ### Reading and writing reports -/

/-- The first section with a title. -/
def section? (rep : Report) (title : String) : Option Section :=
  rep.sections.find? fun s => s.title = title

/-- The heading of a section by its number. -/
def heading (i : Nat) (s : Section) : String := "Step " ++ toString i ++ ": " ++ s.title

/-- The lines of a section; a section without lines says so. -/
def shownLines (s : Section) : List String := if s.lines.isEmpty then ["(none)"] else s.lines

/-- The report as plain text. -/
def text (rep : Report) : String :=
  "Grammar " ++ Text.quoteBytes rep.grammar ++ "  [" ++ rep.fingerprint ++ "]\n" ++
    String.join ((rep.sections.zipIdx 1).map fun entry =>
      "\n" ++ heading entry.2 entry.1 ++ "\n" ++
        String.join ((shownLines entry.1).map fun l => "  " ++ l ++ "\n"))

/-- The report as an outline: headings at level zero, lines at level one. -/
def outline (rep : Report) : List (Nat × String) :=
  (rep.sections.zipIdx 1).flatMap fun entry =>
    (0, heading entry.2 entry.1) :: (shownLines entry.1).map fun l => (1, l)

end Report

end Lookahead
