import Lookahead.Report
import Lookahead.RuleText

/-!
# Responses

The whole way from rule text to a report in one step, for clients that want an answer in words.
-/

namespace Lookahead

namespace RuleText

/-- The analysis of the grammar that some texts write. -/
def analyze (texts : List (List UInt8)) (settings : List Setting) : Except Error Analysis := do
  (← parse defaultName texts).analyze settings

end RuleText

/-- The outcome of an analysis as handed to a client. -/
structure Response where
  status : String
  message : List UInt8
deriving DecidableEq, Repr

namespace Response

/-- The response to rule texts: the report, or the error.  A start letter that is no nonterminal is
the caller's mistake and is not answered. -/
def ofTexts (digest : String → String) (texts : List (List UInt8)) (settings : List Setting) :
    Except LetterError Response :=
  match RuleText.analyze texts settings with
  | .ok a => .ok ⟨"success", Text.bytes (Report.ofAnalysis digest a).text⟩
  | .error (.letter e) => .error e
  | .error e => .ok ⟨"error", e.message⟩

end Response

end Lookahead
