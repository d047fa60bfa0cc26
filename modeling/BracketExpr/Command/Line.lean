import BracketExpr.Command.Invocation

/-!
# The command line

The arguments of the program are read from left to right: options of the program, the name of
a subcommand, then options and at most one positional argument of the subcommand. The first
argument that is wrong decides, and so does the first that asks for the version or for help.

An argument that starts with a hyphen is an option, except for a lone hyphen and for everything
after a lone double hyphen.
-/

namespace BracketExpr

namespace Command

namespace Line

/-- Why the reading of a command line stops before its end. -/
inductive Stop where
  | version
  | help
  | error (e : UsageError)
  deriving DecidableEq, Repr

/-- The form of a single argument. -/
inductive Word where
  /-- A lone double hyphen, after which all arguments are positional. -/
  | separator
  /-- An option of several letters, after a double hyphen, and the value after an equals sign. -/
  | long (name : String) (value? : Option String)
  /-- Options of one letter each, after a single hyphen. -/
  | short (letters : List Char)
  /-- Anything else. -/
  | plain (argument : String)
  deriving DecidableEq, Repr

/-- The form of an argument. -/
def Word.ofArgument (argument : String) : Word :=
  match argument.toList with
  | ['-', '-'] => .separator
  | '-' :: '-' :: s =>
    let name := s.takeWhile (· != '=')
    .long (String.ofList name) ((s.drop name.length).tail?.map String.ofList)
  | '-' :: c :: s => .short (c :: s)
  | _ => .plain argument

/-- The subcommands. -/
inductive Subcommand where
  | parse
  | check
  | format
  | functions
  | docs
  deriving DecidableEq, Repr

/-- The subcommand of the given name. -/
def Subcommand.ofName? (name : String) : Option Subcommand :=
  if name = "parse" then some parse
  else if name = "check" then some check
  else if name = "format" then some format
  else if name = "functions" then some functions
  else if name = "docs" then some docs
  else none

/-- What the arguments of a subcommand have set so far. -/
structure Settings where
  /-- Whether the trace level is set. The level itself is not kept: it decides which log lines are
  written to standard error, and those are left out of `Exit`. -/
  traced : Bool := false
  pretty : Bool := false
  limit? : Option Nat := none
  positional? : Option String := none
  deriving DecidableEq, Repr

/-- The values of the option for the trace level. -/
def traceLevels : List String :=
  ["error", "warn", "info", "debug", "trace"]

/-- The largest nesting limit that can be asked for. -/
def maxLimit : Nat := UInt64.size - 1

/-- The nesting limit that a text of digits stands for, with an optional plus sign before them. -/
def limitOf? (value : String) : Option Nat :=
  let digits :=
    match value.toList with
    | '+' :: s => s
    | s => s
  if digits.all Char.isDigit then (Numeral.natural? digits).filter (· ≤ maxLimit) else none

/-- Sets the trace level. -/
def Settings.setTrace (s : Settings) (value : String) : Except Stop Settings :=
  if !traceLevels.contains value then .error (.error (.invalidValue "--trace-level" value))
  else if s.traced then .error (.error (.repeatedOption "--trace-level"))
  else .ok { s with traced := true }

/-- Sets the nesting limit. -/
def Settings.setLimit (s : Settings) (value : String) : Except Stop Settings :=
  match limitOf? value, s.limit? with
  | none, _ => .error (.error (.invalidValue "--max-depth" value))
  | some _, some _ => .error (.error (.repeatedOption "--max-depth"))
  | some n, none => .ok { s with limit? := some n }

/-- Asks for indented output. -/
def Settings.setPretty (s : Settings) : Except Stop Settings :=
  if s.pretty then .error (.error (.repeatedOption "--pretty"))
  else .ok { s with pretty := true }

/-- Sets the positional argument. -/
def Settings.setPositional (s : Settings) (argument : String) : Except Stop Settings :=
  match s.positional? with
  | none => .ok { s with positional? := some argument }
  | some _ => .error (.error (.unexpectedArgument argument))

/-- What an option of several letters does. -/
inductive LongOption where
  /-- It takes a value. -/
  | valued (set : Settings → String → Except Stop Settings)
  /-- It takes no value. -/
  | flag (set : Settings → Except Stop Settings)

/-- The options of several letters of a subcommand. -/
def Subcommand.longOption? (sub : Subcommand) (name : String) : Option LongOption :=
  if name = "trace-level" then some (.valued Settings.setTrace)
  else if name = "help" then some (.flag fun _ => .error .help)
  else if name = "max-depth" && sub ≠ docs then some (.valued Settings.setLimit)
  else if name = "pretty" && sub = parse then some (.flag Settings.setPretty)
  else none

/-- Options of one letter of a subcommand, one after the other. -/
def Subcommand.readShort (sub : Subcommand) (s : Settings) : List Char → Except Stop Settings
  | [] => .ok s
  | c :: letters =>
    if c = 'h' then .error .help
    else if c = 'p' && sub = parse then do
      sub.readShort (← s.setPretty) letters
    else .error (.error (.unknownOption (String.ofList ['-', c])))

/-- Reads the arguments of a subcommand. -/
def Subcommand.read (sub : Subcommand) (s : Settings) : List String → Except Stop Settings
  | [] => .ok s
  | argument :: arguments =>
    match Word.ofArgument argument with
    | .separator => arguments.foldlM Settings.setPositional s
    | .plain argument => do
      sub.read (← s.setPositional argument) arguments
    | .short letters => do
      sub.read (← sub.readShort s letters) arguments
    | .long name value? =>
      match sub.longOption? name, value?, arguments with
      | none, _, _ => .error (.error (.unknownOption argument))
      | some (.flag set), none, arguments => do
        sub.read (← set s) arguments
      | some (.flag _), some _, _ => .error (.error (.unexpectedValue argument))
      | some (.valued set), some value, arguments => do
        sub.read (← set s value) arguments
      | some (.valued set), none, value :: arguments => do
        sub.read (← set s value) arguments
      | some (.valued _), none, [] => .error (.error (.missingValue argument))

/-- What a subcommand with the given settings asks for. -/
def Subcommand.invocation (sub : Subcommand) (s : Settings) : Invocation :=
  let limit := s.limit?.getD defaultLimit
  match sub with
  | parse => .task (.parse (if s.pretty then .indented else .compact)) limit s.positional?
  | check => .task .check limit s.positional?
  | format => .task .format limit s.positional?
  | functions => .task .functions limit s.positional?
  | docs => .manual s.positional?

/-- Reads a subcommand and its arguments. Help on at most one subcommand can be asked for by name;
the trace level may be set once before the subcommand and once more after it. -/
def readSubcommand (name : String) (arguments : List String) : Except Stop Invocation :=
  match Subcommand.ofName? name with
  | some sub => (sub.read {} arguments).map sub.invocation
  | none =>
    if name = "help" then
      match arguments with
      | [] => .error .help
      | [topic] =>
        if (Subcommand.ofName? topic).isSome || topic = "help" then .error .help
        else .error (.error (.unknownSubcommand topic))
      | _ :: extra :: _ => .error (.error (.unexpectedArgument extra))
    else .error (.error (.unknownSubcommand name))

/-- Reads the arguments of the program, where `s` holds what its options have set so far. -/
def readProgram (s : Settings) : List String → Except Stop Invocation
  | [] => .error (.error .missingSubcommand)
  | argument :: arguments =>
    match Word.ofArgument argument with
    | .separator => .error (.error (.unexpectedArgument argument))
    | .plain name => readSubcommand name arguments
    | .short letters =>
      match letters.head? with
      | some 'V' => .error .version
      | some 'h' => .error .help
      | _ => .error (.error (.unknownOption argument))
    | .long name value? =>
      if name = "trace-level" then
        match value?, arguments with
        | some value, arguments => do
          readProgram (← s.setTrace value) arguments
        | none, value :: arguments => do
          readProgram (← s.setTrace value) arguments
        | none, [] => .error (.error (.missingValue argument))
      else if name = "version" || name = "help" then
        match value? with
        | some _ => .error (.error (.unexpectedValue argument))
        | none => .error (if name = "version" then .version else .help)
      else .error (.error (.unknownOption argument))

/-- What a command line asks for. -/
def read (arguments : List String) : Except UsageError Invocation :=
  match readProgram {} arguments with
  | .ok invocation => .ok invocation
  | .error .version => .ok .version
  | .error .help => .ok .help
  | .error (.error e) => .error e

end Line

end Command

end BracketExpr
