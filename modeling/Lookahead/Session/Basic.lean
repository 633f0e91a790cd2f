import Lookahead.RuleText
import Lookahead.Session.Screen
import Lookahead.Text.Blank

/-!
# Sessions

A session collects rule text line by line and carries out commands on the grammar collected so far.
A line is any run of bytes; one that is no rule is refused and not kept.  Reports are kept under the
fingerprint of their grammar and used again, also after the grammar was cleared.

Two things a session is given from outside: the digest behind fingerprints, and the screen on which
it prints.
-/

namespace Lookahead

/-- What a session remembers. -/
structure Session where
  /-- The rule text accepted so far. -/
  lines : List (List UInt8)
  /-- The settings of every analysis. -/
  settings : List Setting
  /-- The reports made so far, by fingerprint. -/
  reports : List (String × Report)
deriving DecidableEq, Repr

/-- What came of one line. -/
structure Outcome where
  /-- Whether the user wants to leave. -/
  quit : Bool
  error? : Option Error
  printed : List UInt8
deriving DecidableEq, Repr

namespace Outcome

/-- All went well. -/
def done (printed : List UInt8) : Outcome := ⟨false, none, printed⟩

/-- An error, which is shown. -/
def failed (screen : Screen) (e : Error) : Outcome := ⟨false, some e, screen.error e⟩

/-- The user wants to leave. -/
def left : Outcome := ⟨true, none, []⟩

end Outcome

/-- A command, by its first word. -/
inductive Command where
  | run
  | check
  | list
  | reset
  | help
  | quit
  | unknown (word : List UInt8)
deriving DecidableEq, Repr

/-- The command that a word names. -/
def Command.ofWord (word : List UInt8) : Command :=
  if word = Text.bytes ":run" then .run
  else if word = Text.bytes ":check" then .check
  else if word = Text.bytes ":grammar" then .list
  else if word = Text.bytes ":reset" then .reset
  else if word = Text.bytes ":help" then .help
  else if word = Text.bytes ":quit" ∨ word = Text.bytes ":q" then .quit
  else .unknown word

namespace Session

/-- A session in which nothing has happened. -/
def new (settings : List Setting) : Session := ⟨[], settings, []⟩

/-- The grammar collected so far. -/
def grammar (s : Session) : Except Error Grammar := RuleText.parse RuleText.defaultName s.lines

/-- Keeps a line if it is a rule, or several. -/
def addRule (screen : Screen) (s : Session) (line : List UInt8) : Session × Outcome :=
  match RuleText.parse RuleText.defaultName [line] with
  | .error e => (s, .failed screen e)
  | .ok _ => ({ s with lines := s.lines ++ [line] }, .done [])

/-- The report on a grammar, and the session that keeps it. -/
def report (digest : String → String) (s : Session) (g : Grammar) :
    Except Error (Session × Report) :=
  let key := g.fingerprint digest
  match s.reports.lookup key with
  | some rep => .ok (s, rep)
  | none => do
    let rep := Report.ofAnalysis digest (← g.analyze s.settings)
    return ({ s with reports := s.reports ++ [(key, rep)] }, rep)

/-- Analyses the grammar and prints the report. -/
def run (digest : String → String) (screen : Screen) (s : Session) : Session × Outcome :=
  match s.grammar.bind (s.report digest) with
  | .error e => (s, .failed screen e)
  | .ok (s', rep) => (s', .done (screen.report rep))

/-- Checks the grammar for LL(1). -/
def check (screen : Screen) (s : Session) : Outcome :=
  match s.grammar.bind Grammar.check with
  | .error e => .failed screen e
  | .ok () => .done (screen.notice (Text.bytes "grammar passes the LL(1) check"))

/-- Prints the rules of the grammar. -/
def list (screen : Screen) (s : Session) : Outcome :=
  match s.grammar with
  | .error e => .failed screen e
  | .ok g => .done (g.rules.flatMap screen.rule)

/-- Carries out a command. -/
def execute (digest : String → String) (screen : Screen) (s : Session) :
    Command → Session × Outcome
  | .run => s.run digest screen
  | .check => (s, s.check screen)
  | .list => (s, s.list screen)
  | .reset =>
    ({ s with lines := [] }, .done (screen.notice (Text.bytes "grammar cleared")))
  | .help =>
    (s, .done (screen.notice (Text.bytes "commands: :run :check :grammar :reset :help :quit")))
  | .quit => (s, .left)
  | .unknown word => (s, .failed screen (.unknownCommand word))

/-- The byte that begins a command. -/
def colon : UInt8 := 0x3A

/-- Takes one line: a command if it begins with a colon, and rule text otherwise. -/
def eval (digest : String → String) (screen : Screen) (s : Session) (line : List UInt8) :
    Session × Outcome :=
  if line.head? = some colon then s.execute digest screen (.ofWord (Text.firstWord line))
  else s.addRule screen line

end Session

end Lookahead
