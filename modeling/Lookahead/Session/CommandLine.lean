import Lookahead.Session.Basic

/-!
# The command line

The program takes three flags and then rule text or a command.  A flag is a name behind one or two
hyphens; its value stands behind an equals sign, or in the next argument unless the flag is a switch.
Two hyphens alone end the flags, and so does the first argument that is none.

A run greets, takes the arguments as one line, then the lines of the initial file, then those of the
input until the user leaves.  Blanks around a line do not count, and empty lines are passed over.
-/

namespace Lookahead.CommandLine

/-! ### Flags -/

/-- What the flags ask for, and the arguments behind them. -/
structure Options where
  traceLevel : String
  /-- The initial file, empty for none. -/
  initFile : String
  adjacentEnds : Bool
  arguments : List String
deriving DecidableEq, Repr

/-- Why the program ends before it has begun. -/
inductive Refusal where
  /-- The user asked for help. -/
  | help
  /-- The flags are at fault. -/
  | misuse
deriving DecidableEq, Repr

/-- The exit code for a refusal. -/
def Refusal.exitCode : Refusal → Nat
  | .help => 0
  | .misuse => 2

/-- An argument as far as flags go. -/
inductive Argument where
  /-- No flag, so the flags end before it. -/
  | plain
  /-- The mark that ends the flags. -/
  | endMark
  | malformed
  | flag (name : List Char) (value? : Option (List Char))
deriving DecidableEq, Repr

/-- A flag split at the first equals sign. -/
def splitFlag (cs : List Char) : Argument :=
  match cs.dropWhile fun c => c != '=' with
  | [] => .flag cs none
  | _ :: value => .flag (cs.takeWhile fun c => c != '=') (some value)

/-- The name and value of a flag, its hyphens taken off. -/
def classifyName : List Char → Argument
  | [] => .malformed
  | '-' :: _ => .malformed
  | '=' :: _ => .malformed
  | cs => splitFlag cs

/-- What an argument is. -/
def classify : List Char → Argument
  | ['-', '-'] => .endMark
  | '-' :: '-' :: cs => classifyName cs
  | '-' :: c :: cs => classifyName (c :: cs)
  | _ => .plain

/-- The words for yes and no. -/
def switchValue? (s : String) : Option Bool :=
  if ["1", "t", "T", "TRUE", "true", "True"].contains s then some true
  else if ["0", "f", "F", "FALSE", "false", "False"].contains s then some false
  else none

/-- A flag that takes any text, whose value may be in the next argument. -/
inductive TextFlag where
  | trace
  | init

/-- The options with the value of a flag. -/
def TextFlag.assign (o : Options) (value : String) : TextFlag → Options
  | .trace => { o with traceLevel := value }
  | .init => { o with initFile := value }

/-- The flag with a name that takes any text. -/
def textFlag? (name : String) : Option TextFlag :=
  if name = "trace" then some .trace
  else if name = "init" then some .init
  else none

/-- Reads the flags that stand in front of the arguments. -/
def readFlags (o : Options) : List String → Except Refusal Options
  | [] => .ok { o with arguments := [] }
  | arg :: rest =>
    match classify arg.toList with
    | .plain => .ok { o with arguments := arg :: rest }
    | .endMark => .ok { o with arguments := rest }
    | .malformed => .error .misuse
    | .flag name value? =>
      let name := String.ofList name
      match textFlag? name, value? with
      | some f, some value => readFlags (f.assign o (String.ofList value)) rest
      | some f, none =>
        match rest with
        | value :: rest => readFlags (f.assign o value) rest
        | [] => .error .misuse
      | none, value? =>
        if name = "adjacent-ends" then
          match (value?.map String.ofList).elim (some true) switchValue? with
          | some on => readFlags { o with adjacentEnds := on } rest
          | none => .error .misuse
        else if name = "help" ∨ name = "h" then .error .help
        else .error .misuse

/-- What a command line asks for. -/
def parse (args : List String) : Except Refusal Options :=
  readFlags ⟨"Info", "", false, []⟩ args

/-! ### Runs -/

/-- A session and all that was printed so far. -/
structure Running where
  session : Session
  printed : List UInt8

/-- Takes a line without regard to blanks around it, and says what came of it. -/
def Running.take (digest : String → String) (screen : Screen) (r : Running)
    (line : List UInt8) : Running × Outcome :=
  let line := Text.trim line
  if line.isEmpty then (r, .done [])
  else
    let (session, outcome) := r.session.eval digest screen line
    (⟨session, r.printed ++ outcome.printed⟩, outcome)

/-- The longest line of an initial file, in bytes, that is still read. -/
def longestLine : Nat := 65535

/-- The lines of an initial file up to the first one that is too long. -/
def readableLines (text : List UInt8) : List (List UInt8) :=
  (Text.lines text).takeWhile fun l => l.length ≤ longestLine

/-- The session before any line is read from the input: it has greeted, taken the arguments and
read the initial file.  If the arguments are at fault, only what was printed is left. -/
def start (digest : String → String) (screen : Screen) (o : Options) (initText : List UInt8) :
    Except (List UInt8) Running :=
  let greeted : Running :=
    ⟨.new [.adjacentEnds o.adjacentEnds], screen.notice (Text.bytes "Welcome to LL.REPL")⟩
  let (told, outcome) := greeted.take digest screen (Text.bytes (" ".intercalate o.arguments))
  match outcome.error? with
  | some _ => .error told.printed
  | none => .ok ((readableLines initText).foldl (fun r l => (r.take digest screen l).1) told)

/-- Takes lines until the user leaves. -/
def Running.takeAll (digest : String → String) (screen : Screen) (r : Running) :
    List (List UInt8) → Running
  | [] => r
  | line :: rest =>
    let (r, outcome) := r.take digest screen line
    if outcome.quit then r else r.takeAll digest screen rest

/-- The exit code and everything printed in a run on some input.  The initial text is that of the
file which the options name, empty if there is no such file. -/
def run (digest : String → String) (screen : Screen) (args : List String)
    (initText : Options → List UInt8) (input : List UInt8) : Nat × List UInt8 :=
  match parse args with
  | .error refusal => (refusal.exitCode, [])
  | .ok o =>
    match start digest screen o (initText o) with
    | .error printed => (2, printed)
    | .ok r => (0, (r.takeAll digest screen (Text.lines input)).printed)

end Lookahead.CommandLine
