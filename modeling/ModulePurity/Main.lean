import ModulePurity.Command.Snapshot

/-!
# The program

Reads a snapshot from standard input, runs the command line on it, writes what it prints and logs, and
puts the files that it changes in place.
-/

namespace ModulePurity

/-- The rest of a stream. -/
partial def readRest (stream : IO.FS.Stream) (acc : String) : IO String := do
  let line ← stream.getLine
  if line.isEmpty then return acc else readRest stream (acc ++ line)

end ModulePurity

open ModulePurity

/-- Runs the command line. -/
def main (args : List String) : IO UInt32 := do
  match Command.Snapshot.parse? (← readRest (← IO.getStdin) "") with
  | none =>
    IO.eprintln "malformed snapshot"
    return 2
  | some snapshot =>
    let before := snapshot.workspace.files
    let outcome := Command.run snapshot.workspace snapshot.grammar args
    for line in outcome.log do
      IO.eprintln line.render
    for (path, text) in Command.newTexts before outcome.files do
      IO.FS.writeFile path text
    IO.print outcome.stdout
    for failure in outcome.failure.toList do
      IO.eprintln failure.message
    return UInt32.ofNat outcome.exitCode
