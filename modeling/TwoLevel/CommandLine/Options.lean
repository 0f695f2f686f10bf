import TwoLevel.Event

/-!
# Command line options

Arguments are read from left to right, and the first thing found wrong ends the reading. Options
may stand anywhere before `--`, after which all arguments are operands. Short switches may be
joined; the value of a parameter is the next argument, or follows `=`, or follows the short name
directly. Nothing may be given twice.

The program does not read its arguments itself: it declares its options to a library that does. The
reader here stands in for that library, and follows what is documented of it, with two differences.

* The help that the library adds (`-h`, `--help`) is left out, since its text is the library's.
  Here these are unknown options.
* What is wrong with the arguments is told in words of this module (`UsageError.message`). That
  they are refused, and with which status a run then ends, does not depend on the words.
-/

namespace TwoLevel.CommandLine

/-- What the arguments ask for. -/
structure Options where
  operands : List String := []
  verbose : Bool := false
  quiet : Bool := false
  logLevel? : Option LogLevel := none
  spelling? : Option Spelling := none

/-- What can be wrong with the arguments. -/
inductive UsageError where
  | unknownOption (name : String)
  | missingValue (option : String)
  | invalidValue (option value : String)
  | needlessValue (option : String)
  | repeated (option : String)
  | conflict (option other : String)
  deriving DecidableEq, Repr

/-- A text that describes an error, in words of its own. -/
def UsageError.message : UsageError → String
  | unknownOption name => s!"unexpected argument '{name}'"
  | missingValue option => s!"a value is required for '{option}'"
  | invalidValue option value => s!"invalid value '{value}' for '{option}'"
  | needlessValue option => s!"no value is allowed for '{option}'"
  | repeated option => s!"the argument '{option}' cannot be used multiple times"
  | conflict option other => s!"the argument '{option}' cannot be used with '{other}'"

/-- An option without a value. -/
inductive Switch where
  | verbose
  | quiet
  | version
  deriving DecidableEq, Repr

/-- An option with a value. -/
inductive Parameter where
  | format
  | logLevel
  deriving DecidableEq, Repr

/-- An option. -/
inductive Key where
  | switch (s : Switch)
  | parameter (p : Parameter)
  deriving DecidableEq, Repr

/-- The full name of a switch. -/
def Switch.name : Switch → String
  | verbose => "--verbose"
  | quiet => "--quiet"
  | version => "--version"

/-- The full name of a parameter. -/
def Parameter.name : Parameter → String
  | format => "--format"
  | logLevel => "--log-level"

/-- The option of a full name. -/
def Key.ofName? (name : String) : Option Key :=
  [Key.switch .verbose, .switch .quiet, .switch .version, .parameter .format,
    .parameter .logLevel].find? fun
      | .switch s => s.name = name
      | .parameter p => p.name = name

/-- The option of a short name. -/
def Key.ofChar? : Char → Option Key
  | 'v' => some (.switch .verbose)
  | 'q' => some (.switch .quiet)
  | 'V' => some (.switch .version)
  | 'f' => some (.parameter .format)
  | _ => none

/-- The spelling of a name. -/
def spellingOfName? : String → Option Spelling
  | "default" => some .textbook
  | "infix" => some .symbolic
  | "lowercase" => some .verbal
  | _ => none

/-- How far the arguments have been read. -/
inductive Progress where
  /-- The next argument stands for itself. -/
  | reading (options : Options)
  /-- The next argument is the value of a parameter. -/
  | awaiting (parameter : Parameter) (options : Options)
  /-- The version is asked for. -/
  | version

namespace Options

/-- Turns a switch on. -/
def turnOn (o : Options) : Switch → Except UsageError Progress
  | .verbose =>
    if o.verbose then .error (.repeated Switch.verbose.name)
    else .ok (.reading { o with verbose := true })
  | .quiet =>
    if o.quiet then .error (.repeated Switch.quiet.name)
    else .ok (.reading { o with quiet := true })
  | .version => .ok .version

/-- Gives a parameter its value. -/
def assign (o : Options) (p : Parameter) (value : String) : Except UsageError Options :=
  match p with
  | .format =>
    match o.spelling?, spellingOfName? value with
    | some _, _ => .error (.repeated p.name)
    | none, none => .error (.invalidValue p.name value)
    | none, some s => .ok { o with spelling? := some s }
  | .logLevel =>
    match o.logLevel?, LogLevel.ofName? value with
    | some _, _ => .error (.repeated p.name)
    | none, none => .error (.invalidValue p.name value)
    | none, some l => .ok { o with logLevel? := some l }

/-- Reads an argument of short names, without its dash. -/
def readShort (o : Options) : List Char → Except UsageError Progress
  | [] => .ok (.reading o)
  | c :: cs =>
    match Key.ofChar? c with
    | none => .error (.unknownOption ("-" ++ c.toString))
    | some (.parameter p) =>
      match cs with
      | [] => .ok (.awaiting p o)
      | '=' :: value => (o.assign p (.ofList value)).map .reading
      | value => (o.assign p (.ofList value)).map .reading
    | some (.switch s) =>
      match o.turnOn s with
      | .ok (.reading o) => o.readShort cs
      | other => other

/-- Reads an argument of a full name, which may hold a value after an equals sign. -/
def readLong (o : Options) (arg : List Char) : Except UsageError Progress :=
  let name := String.ofList (arg.takeWhile (· ≠ '='))
  match Key.ofName? name, arg.dropWhile (· ≠ '=') with
  | none, _ => .error (.unknownOption name)
  | some (.switch s), [] => o.turnOn s
  | some (.switch _), _ => .error (.needlessValue name)
  | some (.parameter p), [] => .ok (.awaiting p o)
  | some (.parameter p), _ :: value => (o.assign p (.ofList value)).map .reading

/-- Reads one argument. -/
def readArgument (o : Options) (arg : String) : Except UsageError Progress :=
  match arg.toList with
  | '-' :: '-' :: _ => o.readLong arg.toList
  | '-' :: c :: cs => o.readShort (c :: cs)
  | _ => .ok (.reading { o with operands := o.operands ++ [arg] })

end Options

/-- What a run is to do. -/
inductive Command where
  | showVersion
  | minimize (options : Options)

namespace Command

/-- Reads the arguments that remain. -/
def readAll : List String → Progress → Except UsageError Command
  | _, .version => .ok .showVersion
  | [], .awaiting p _ => .error (.missingValue p.name)
  | [], .reading o =>
    if o.verbose && o.quiet then .error (.conflict Switch.quiet.name Switch.verbose.name)
    else .ok (.minimize o)
  | value :: args, .awaiting p o =>
    match o.assign p value with
    | .error e => .error e
    | .ok o => readAll args (.reading o)
  | arg :: args, .reading o =>
    if arg = "--" then
      if o.verbose && o.quiet then .error (.conflict Switch.quiet.name Switch.verbose.name)
      else .ok (.minimize { o with operands := o.operands ++ args })
    else match o.readArgument arg with
      | .error e => .error e
      | .ok progress => readAll args progress

/-- The command of a list of arguments. -/
def ofArguments (args : List String) : Except UsageError Command := readAll args (.reading {})

end Command

end TwoLevel.CommandLine
