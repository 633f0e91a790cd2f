import Lookahead.Error
import Lookahead.LL1.Check
import Lookahead.Predict.Select
import Lookahead.Reach

/-!
# Analysis

The analysis of a grammar runs through all stages in order: nullable nonterminals, `BDW` and `BW`,
FIRST, `FDB`, `DEO` and `EO`, `FB`, FOLLOW and SELECT.  Unless it is told not to, it first refuses
grammars that fail the LL(1) check.  Settings take effect in the order in which they are given.
-/

namespace Lookahead

/-- A setting of the analysis. -/
inductive Setting where
  /-- Derivations start with the nonterminal of this letter. -/
  | start (letter : Char)
  /-- A nullable symbol right before a terminal counts as an end of that terminal. -/
  | adjacentEnds (on : Bool)
  /-- The LL(1) check is left out. -/
  | skipCheck (on : Bool)
deriving DecidableEq, Repr

/-- All settings together. -/
structure Config where
  start : Symbol
  adjacentEnds : Bool
  skipCheck : Bool
deriving DecidableEq, Repr

namespace Config

/-- The configuration without any settings. -/
def standard : Config := ⟨.conventionalStart, false, false⟩

/-- The configuration with one more setting. -/
def apply (c : Config) : Setting → Except LetterError Config
  | .start letter => do return { c with start := ← Symbol.nonterminalOf letter }
  | .adjacentEnds on => .ok { c with adjacentEnds := on }
  | .skipCheck on => .ok { c with skipCheck := on }

/-- The configuration that some settings give. -/
def ofSettings (settings : List Setting) : Except LetterError Config :=
  settings.foldlM apply standard

end Config

/-- The results of all stages. -/
structure Analysis where
  grammar : Grammar
  start : Symbol
  nullable : NullableSet
  bdw : Relation
  bw : Relation
  first : FirstSets
  fdb : Relation
  deo : Relation
  endAdjacency : List Pair
  eo : Relation
  fb : Relation
  follow : FollowSets
  select : SelectSets

namespace Analysis

/-- All stages in order, without any check. -/
def ofConfig (g : Grammar) (c : Config) : Analysis :=
  let nullable := NullableSet.ofGrammar g
  let bdw := g.beginsDirectlyWith nullable
  let bw := g.beginsWith bdw
  let first := FirstSets.ofGrammar g nullable bw
  let fdb := g.followedDirectlyBy nullable
  let deo := g.directlyEnds nullable c.adjacentEnds
  let eo := g.ends deo
  let fb := eo.followedBy fdb bw c.start
  let follow := FollowSets.ofGrammar g nullable fb
  { grammar := g
    start := c.start
    nullable, bdw, bw, first, fdb, deo, eo, fb, follow
    endAdjacency := g.endAdjacency nullable
    select := SelectSets.ofGrammar g first follow }

/-- Rules of a nonterminal with a common symbol in their SELECT sets. -/
def conflicts (a : Analysis) : List Conflict := a.select.conflicts a.grammar

end Analysis

namespace Grammar

/-- The grammar itself if it passes the LL(1) check. -/
def check (g : Grammar) : Except Error Unit :=
  match g.violation? with
  | some v => .error (.violation v)
  | none => .ok ()

/-- The analysis of a grammar under some settings. -/
def analyze (g : Grammar) (settings : List Setting) : Except Error Analysis := do
  if g.isEmpty then throw (.draft .empty)
  let c ← (Config.ofSettings settings).mapError .letter
  unless c.skipCheck do g.check
  return .ofConfig g c

end Grammar

end Lookahead
