import Lookahead.Digest
import Lookahead.Session.CommandLine
import Lookahead.Terminal

/-!
# The program

Reads lines from standard input and prints what the session prints, as it is printed.
-/

namespace Lookahead.Program

/-- The text of the initial file, empty if it cannot be read. -/
def readInit (o : CommandLine.Options) : IO (List UInt8) := do
  if o.initFile.isEmpty then return []
  try return (← IO.FS.readBinFile o.initFile).toList catch _ => return []

/-- Prints bytes. -/
def put (output : IO.FS.Stream) (printed : List UInt8) : IO Unit :=
  output.write printed.toByteArray

/-- Takes lines from standard input until it ends or the user leaves. -/
partial def loop (input output : IO.FS.Stream) (r : CommandLine.Running) : IO Unit := do
  let line ← input.getLine
  if line.isEmpty then return
  let (next, outcome) := r.take Digest.hex Terminal.screen (Text.bytes line)
  put output outcome.printed
  output.flush
  unless outcome.quit do loop input output next

end Lookahead.Program

open Lookahead in
/-- Runs a session on standard input. -/
def main (args : List String) : IO UInt32 := do
  let output ← IO.getStdout
  match CommandLine.parse args with
  | .error refusal => return UInt32.ofNat refusal.exitCode
  | .ok o =>
    match CommandLine.start Digest.hex Terminal.screen o (← Program.readInit o) with
    | .error printed =>
      Program.put output printed
      return 2
    | .ok r =>
      Program.put output r.printed
      Program.loop (← IO.getStdin) output r
      return 0
