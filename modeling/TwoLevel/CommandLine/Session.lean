import TwoLevel.CommandLine.Options
import TwoLevel.Report

/-!
# Sessions

A `Session` is what the program does, free of the world it does it in: it either ends in an
`Outcome` or asks for a line and goes on with the answer. The program asks for the table and the
names that its arguments do not give. `Session.replay` answers the questions from a text.

The status and the standard output of an `Outcome` are those of the program. On the standard error
output the program leaves the layout to libraries, which is not followed here: a log line is its
level and its message, without a time; a run on a faulty input has the message of its error, without
the remark which text could not be read; and what is said about wrong arguments has words of its own
(`UsageError.message`).
-/

namespace TwoLevel.CommandLine

/-- How a run ends. -/
structure Outcome where
  status : Nat
  /-- The text for the standard output. -/
  output : String
  /-- The lines for the standard error output: what they say, not how they are laid out. -/
  messages : List String

/-- What a run does: it ends, or asks for a line. -/
inductive Session where
  | finish (outcome : Outcome)
  | ask (prompt : String) (answer : String → Session)

namespace Outcome

/-- The end of a run with an output. -/
def success (output : String) (messages : List String) : Outcome := ⟨0, output, messages⟩

/-- The end of a run whose input is at fault. -/
def failure (e : Error) : Outcome := ⟨1, "", [e.message]⟩

/-- The end of a run whose arguments are at fault. -/
def misuse (e : UsageError) : Outcome := ⟨2, "", [e.message]⟩

end Outcome

/-- The name and the version of the program. -/
def versionText : String := "qmkit 0.1.0\n"

/-- The question for the table. -/
def tablePrompt : String := "Truth table: "

/-- The question for the names of `width` variables. -/
def namesPrompt (width : Nat) : String :=
  "Variable names (e.g. \"" ++ (Names.generic width).text ++ "\", empty for default): "

/-- The names of a text, or made-up ones if it is empty. -/
def readNames (width : Nat) (text : String) : Except Error Names :=
  if text.isEmpty then .ok (.generic width) else Names.ofText text

/-- The messages of a minimization that the options let through. -/
def logLines (o : Options) (table : TruthTable) (m : Minimization) : List String :=
  ((Event.ofMinimization table m).filter fun e => (o.logLevel?.getD .warn).admits e.level).map
    fun e => s!"[{e.level.name}] {e.message}"

/-- The expression of the minimized table on a line of its own. -/
def quietOutcome (o : Options) (table : TruthTable) (names : Names) (spelling : Spelling) :
    Except Error Outcome := do
  names.checkWidth table.width
  match table.minimize with
  | .ok m =>
    let expression ← m.cover.expression names spelling
    return .success (expression ++ "\n") (logLines o table m)
  | .error .emptyFunction => return .success (spelling.constant false ++ "\n") []
  | .error e => throw e

/-- The report on the minimized table. -/
def reportOutcome (o : Options) (table : TruthTable) (names : Names) (spelling : Spelling) :
    Except Error Outcome := do
  let report ← Report.ofTable table names o.verbose spelling
  let messages := match report.minimization? with
    | some m => logLines o table m
    | none => []
  return .success report.text messages

/-- The end of a run on a table and the text of its names. -/
def outcome (o : Options) (table : TruthTable) (namesText : String) : Outcome :=
  let spelling := o.spelling?.getD .textbook
  let result := do
    let names ← readNames table.width namesText
    if o.quiet then quietOutcome o table names spelling else reportOutcome o table names spelling
  match result with
  | .ok outcome => outcome
  | .error e => .failure e

namespace Session

/-- Goes on with the text of the table; the names are asked for unless there are operands. -/
def withTable (o : Options) (names : List String) (tableText : String) : Session :=
  match TruthTable.ofText tableText with
  | .error e => .finish (.failure e)
  | .ok table =>
    match names with
    | [] => .ask (namesPrompt table.width) fun line => .finish (CommandLine.outcome o table line)
    | names => .finish (CommandLine.outcome o table (" ".intercalate names))

/-- What a run with the given arguments does. -/
def ofArguments (args : List String) : Session :=
  match Command.ofArguments args with
  | .error e => .finish (.misuse e)
  | .ok .showVersion => .finish (.success versionText [])
  | .ok (.minimize o) =>
    match o.operands with
    | [] => .ask tablePrompt (withTable o [])
    | table :: names => withTable o names table

/--
The outcome of a session whose questions are answered by the lines of a text, each without the
blanks at its ends. A line that is missing counts as empty. The questions are part of the output.
-/
def replay : Session → List Char → Outcome
  | .finish outcome, _ => outcome
  | .ask prompt answer, input =>
    let line := Text.trim (.ofList (input.takeWhile (· ≠ '\n')))
    let rest := (input.dropWhile (· ≠ '\n')).drop 1
    let outcome := (answer line).replay rest
    { outcome with output := prompt ++ outcome.output }

end Session

end TwoLevel.CommandLine
