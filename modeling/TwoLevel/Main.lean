import TwoLevel.CommandLine.Session

/-!
# The program

Runs a session on the standard streams.
-/

namespace TwoLevel.CommandLine

/-- Asks the questions of a session and writes its outcome; the result is the exit status. -/
def Session.perform : Session → IO UInt32
  | .finish outcome => do
    IO.print outcome.output
    for message in outcome.messages do
      IO.eprintln message
    return outcome.status.toUInt32
  | .ask prompt answer => do
    IO.print prompt
    (← IO.getStdout).flush
    let line ← (← IO.getStdin).getLine
    (answer (Text.trim line)).perform

end TwoLevel.CommandLine

/-- Minimizes a truth table given by the arguments or on the standard input. -/
def main (args : List String) : IO UInt32 :=
  (TwoLevel.CommandLine.Session.ofArguments args).perform
