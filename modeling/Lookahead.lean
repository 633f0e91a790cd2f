import Lookahead.Analysis
import Lookahead.Digest
import Lookahead.Error
import Lookahead.Grammar.Basic
import Lookahead.Grammar.Draft
import Lookahead.LL1.Check
import Lookahead.LL1.Violation
import Lookahead.Main
import Lookahead.Neighbours
import Lookahead.Nullability
import Lookahead.Predict.First
import Lookahead.Predict.Follow
import Lookahead.Predict.Select
import Lookahead.Predict.SetTable
import Lookahead.Reach
import Lookahead.Relation.Basic
import Lookahead.Relation.Closure
import Lookahead.Report
import Lookahead.Response
import Lookahead.RuleText
import Lookahead.Saturation
import Lookahead.Session.Basic
import Lookahead.Session.CommandLine
import Lookahead.Session.Screen
import Lookahead.Span
import Lookahead.Symbol
import Lookahead.Symbol.Code
import Lookahead.Symbol.Letter
import Lookahead.SymbolSet
import Lookahead.TagMatrix
import Lookahead.Terminal
import Lookahead.Text.Blank
import Lookahead.Text.Lines
import Lookahead.Text.Markup
import Lookahead.Text.Printable
import Lookahead.Text.Quoted
import Lookahead.Text.Utf8
import Lookahead.Token.Basic
import Lookahead.Token.Lexer
import Lookahead.Proofs.Derivation
import Lookahead.Proofs.Growth
import Lookahead.Proofs.Closure
import Lookahead.Proofs.Neighbours
import Lookahead.Proofs.Reach
import Lookahead.Proofs.SetTable
import Lookahead.Proofs.First
import Lookahead.Proofs.Analysis
import Lookahead.Proofs.Follow
import Lookahead.Proofs.Determinism
import Lookahead.Proofs.Equations
import Lookahead.Proofs.Leads
import Lookahead.Proofs.Precision
import Lookahead.Proofs.Draft
import Lookahead.Proofs.RuleLine
import Lookahead.Proofs.RuleText
import Lookahead.Proofs.Spelling
import Lookahead.Proofs.Printing
import Lookahead.Proofs.Session
import Lookahead.Proofs.ReportCache
import Lookahead.Proofs.Monotone
import Lookahead.Proofs.AdjacentEnds
import Lookahead.Proofs.DirectFollowers
import Lookahead.Proofs.LongestMatch
import Lookahead.Proofs.Boundary
import Lookahead.Proofs.Layout
import Lookahead.Proofs.Rendering
import Lookahead.Proofs.Edges
import Lookahead.Proofs.TagMatrix
import Lookahead.Proofs.PairOrder
import Lookahead.Proofs.Origins
import Lookahead.Proofs.ClosureOrigins
import Lookahead.Proofs.ReportSections
import Lookahead.Proofs.Join
import Lookahead.Proofs.Witnesses
import Lookahead.Proofs.FirstByRelation
import Lookahead.Proofs.FirstViolation
import Lookahead.Proofs.Writes
import Lookahead.Proofs.Building
import Lookahead.Proofs.Fingerprint
import Lookahead.Proofs.Seeds
import Lookahead.Proofs.SetAnswers
