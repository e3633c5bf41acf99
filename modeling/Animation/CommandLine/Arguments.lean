import Animation.CommandLine.Assignment
import Animation.Text.Visible

/-!
The arguments of the program. There are two commands, each with options of its
own. The value of an option is attached to it by an equals sign or follows as
the next argument; a value that follows is looked at only when the next option
is taken or the arguments end, so an unknown argument in between is reported
first.
-/

namespace Animation.CommandLine

/-- The name the program calls itself by. -/
def programName : String := "animexpr"

def programVersion : String := "0.1.0"

inductive Flag where
  | input | ticks | assignment | verbose | help | version
  deriving DecidableEq, Repr

namespace Flag

def name : Flag → String
  | .input => "in"
  | .ticks => "ticks"
  | .assignment => "set"
  | .verbose => "verbose"
  | .help => "help"
  | .version => "version"

/-- What the value of an option is called, if the option has one. -/
def valueName? : Flag → Option String
  | .input => some "IN_PATH"
  | .ticks => some "TICKS"
  | .assignment => some "ASSIGNMENTS"
  | .verbose | .help | .version => none

/-- An option as it is written in messages. -/
def usage (flag : Flag) : String :=
  match flag.valueName? with
  | none => "--" ++ flag.name
  | some value => "--" ++ flag.name ++ " <" ++ value ++ ">"

end Flag

/-- Where options are given: before the command, or after one. -/
inductive Level where
  | top | eval | check
  deriving DecidableEq, Repr

def Level.flags : Level → List Flag
  | .top => [.verbose, .help, .version]
  | .eval => [.input, .ticks, .assignment, .verbose, .help]
  | .check => [.input, .verbose, .help]

/-- Why a text is no count of ticks. -/
inductive CountFault where
  | empty | badDigit | tooLarge
  deriving DecidableEq, Repr

def CountFault.message : CountFault → String
  | .empty => "cannot parse integer from empty string"
  | .badDigit => "invalid digit found in string"
  | .tooLarge => "number too large to fit in target type"

/-- Reads digits after `count`, stopping at the first that is none or that
makes the number exceed 64 bits. -/
def readDigits (count : Nat) : List Char → Except CountFault Nat
  | [] => .ok count
  | c :: rest =>
    if !c.isDigit then .error .badDigit
    else
      let next := count * 10 + Decimal.digit c
      if next < UInt64.size then readDigits next rest else .error .tooLarge

/-- Reads a count, which may have a plus sign but not only that. -/
def readCount (text : String) : Except CountFault Nat :=
  match text.toList with
  | [] => .error .empty
  | ['+'] => .error .badDigit
  | '+' :: digits => readDigits 0 digits
  | digits => readDigits 0 digits

/-- Why the arguments are refused. -/
inductive UsageFault where
  /-- There is nothing to go by at all. -/
  | nothing
  | noCommand
  | unknownCommand (text : String)
  | unexpected (argument : String)
  | unexpectedValue (flag : Flag) (value : String)
  | missingValue (flag : Flag)
  | repeated (flag : Flag)
  | badValue (flag : Flag) (value reason : String)
  | missingRequired
  deriving DecidableEq, Repr

/-- A text as a terminal would emphasise it. -/
def emphasised (text : String) : String := "\x1b[1m" ++ text ++ "\x1b[0m"

/-- A fault in words, with emphasis. The reason for a bad value has none, though
it may quote the value. -/
def UsageFault.words : UsageFault → String
  | .nothing => "Usage: " ++ programName ++ " [OPTIONS] <COMMAND>"
  | .noCommand =>
    "error: '" ++ emphasised programName ++ "' requires a subcommand but one was not provided"
  | .unknownCommand text => "error: unrecognized subcommand '" ++ emphasised text ++ "'"
  | .unexpected argument => "error: unexpected argument '" ++ emphasised argument ++ "' found"
  | .unexpectedValue flag value =>
    "error: unexpected value '" ++ emphasised value ++ "' for '" ++ emphasised flag.usage ++
      "' found; no more were expected"
  | .missingValue flag =>
    "error: a value is required for '" ++ emphasised flag.usage ++ "' but none was supplied"
  | .repeated flag =>
    "error: the argument '" ++ emphasised flag.usage ++ "' cannot be used multiple times"
  | .badValue flag value reason =>
    "error: invalid value '" ++ emphasised value ++ "' for '" ++ emphasised flag.usage ++ "': " ++
      reason
  | .missingRequired => "error: the following required arguments were not provided:"

/-- What is printed about a fault in the arguments: its words, and where to find
help. All emphasis is taken out again, and with it whatever else in the
arguments would act on a terminal. -/
def UsageFault.message (fault : UsageFault) : String :=
  Text.visible
    (fault.words ++ "\n\nFor more information, try '" ++ emphasised "--help" ++ "'.")

/-- What the program is asked to do. -/
inductive Request where
  | help
  | version
  | eval (path : String) (ticks : Nat) (assignments : List Assignment)
  | check (path : String)

/-- The one file that a request reads. -/
def Request.path? : Request → Option String
  | .eval path .. | .check path => some path
  | .help | .version => none

/-- Why reading the arguments ends before their end. -/
inductive Stop where
  | fault (fault : UsageFault)
  | request (request : Request)

/-- The options of one level that have been taken. -/
structure Taken where
  input : Option String := none
  ticks : Option Nat := none
  assignments : List Assignment := []
  verbose : Bool := false

namespace Taken

/-- Takes an option with its value, if there is one. A missing value is noticed
before a repeated option, and a repeated option before a bad value. -/
def take (taken : Taken) (flag : Flag) (value : Option String) : Except Stop Taken :=
  match flag, value with
  | .help, _ => .error (.request .help)
  | .version, _ => .error (.request .version)
  | .verbose, _ =>
    if taken.verbose then .error (.fault (.repeated flag)) else .ok { taken with verbose := true }
  | _, none => .error (.fault (.missingValue flag))
  | .input, some path =>
    if taken.input.isSome then .error (.fault (.repeated flag))
    else if path.isEmpty then .error (.fault (.missingValue flag))
    else .ok { taken with input := some path }
  | .ticks, some text =>
    if taken.ticks.isSome then .error (.fault (.repeated flag))
    else
      match readCount text with
      | .ok count => .ok { taken with ticks := some count }
      | .error reason => .error (.fault (.badValue flag text reason.message))
  | .assignment, some text =>
    match Assignment.ofText text with
    | .ok assignment => .ok { taken with assignments := taken.assignments ++ [assignment] }
    | .error reason => .error (.fault (.badValue flag text (reason.message text)))

end Taken

/-- How an argument looks. -/
inductive Shape where
  /-- Two hyphens alone: what follows are no options. -/
  | separator
  | long (name : String) (value : Option String)
  | short (letter : Char)
  | plain

def Shape.ofArgument (argument : String) : Shape :=
  match argument.toList with
  | ['-', '-'] => .separator
  | '-' :: '-' :: rest =>
    match splitEquals? rest with
    | none => .long (String.ofList rest) none
    | some (name, value) => .long (String.ofList name) (some (String.ofList value))
  | '-' :: letter :: _ => .short letter
  | _ => .plain

/-- A reader of the options of one level. -/
structure Reader where
  level : Level
  taken : Taken := {}
  /-- An option that has not been taken yet because its value may follow, and
  the value if it has come. -/
  pending : Option (Flag × Option String) := none
  /-- Whether there can be no more options. -/
  separated : Bool := false

namespace Reader

/-- Takes the pending option. -/
def settle (reader : Reader) : Except Stop Reader :=
  match reader.pending with
  | none => .ok reader
  | some (flag, value) =>
    (reader.taken.take flag value).map fun taken => { reader with taken, pending := none }

/-- Takes an option, after the pending one. -/
def take (reader : Reader) (flag : Flag) (value : Option String) : Except Stop Reader := do
  let reader ← reader.settle
  let taken ← reader.taken.take flag value
  pure { reader with taken }

def long (reader : Reader) (name : String) (value : Option String) : Except Stop Reader :=
  match reader.level.flags.find? (fun flag => flag.name == name) with
  | none => .error (.fault (.unexpected ("--" ++ name)))
  | some flag =>
    match flag.valueName?, value with
    | some _, none => reader.settle.map fun reader => { reader with pending := some (flag, none) }
    | none, some value => .error (.fault (.unexpectedValue flag value))
    | _, value => reader.take flag value

/-- Only asking for help and for the version has a short form. -/
def short (reader : Reader) (letter : Char) : Except Stop Reader :=
  let flag := if letter = 'h' then some Flag.help else if letter = 'V' then some .version else none
  match flag.filter reader.level.flags.contains with
  | some flag => reader.take flag none
  | none => .error (.fault (.unexpected (String.ofList ['-', letter])))

/-- An argument that is no option: the value of a pending one, or a fault. -/
def plain (reader : Reader) (argument : String) : Except Stop Reader :=
  match reader.separated, reader.pending with
  | false, some (flag, none) => .ok { reader with pending := some (flag, some argument) }
  | _, _ => .error (.fault (.unexpected argument))

def step (reader : Reader) (argument : String) : Except Stop Reader :=
  if reader.separated then reader.plain argument
  else
    match Shape.ofArgument argument with
    | .separator => .ok { reader with separated := true }
    | .long name value => reader.long name value
    | .short letter => reader.short letter
    | .plain => reader.plain argument

end Reader

/-- The options of a command. -/
def readOptions (level : Level) (arguments : List String) : Except Stop Taken := do
  let reader ← arguments.foldlM Reader.step { level }
  let reader ← reader.settle
  pure reader.taken

def commandNames : List String := ["eval", "check", "help"]

/-- Help is about the program or about one command. -/
def readHelp : List String → Except Stop Request
  | [] => .ok .help
  | [name] =>
    if commandNames.contains name then .ok .help else .error (.fault (.unknownCommand name))
  | name :: other :: _ =>
    .error (.fault (.unknownCommand (if commandNames.contains name then other else name)))

/-- Reads what follows the name of a command. -/
def readCommand (name : String) (arguments : List String) : Except Stop Request :=
  if name = "help" then readHelp arguments
  else do
    let taken ← readOptions (if name = "eval" then .eval else .check) arguments
    match taken.input with
    | none => .error (.fault .missingRequired)
    | some path =>
      pure (if name = "eval" then .eval path (taken.ticks.getD 1) taken.assignments
        else .check path)

/-- Reads arguments up to the command. After a separator there is no command
any more, and a name of one is just unexpected. -/
def readTop (reader : Reader) : List String → Except Stop Request
  | [] => .error (.fault (if reader.taken.verbose then .noCommand else .nothing))
  | argument :: rest =>
    if reader.separated then
      .error (.fault (if commandNames.contains argument then .unexpected argument
        else .unknownCommand argument))
    else if commandNames.contains argument then readCommand argument rest
    else
      match Shape.ofArgument argument with
      | .plain => .error (.fault (.unknownCommand argument))
      | _ => do
        let reader ← reader.step argument
        readTop reader rest

/-- Reads all arguments of the program. -/
def readArguments (arguments : List String) : Except UsageFault Request :=
  match readTop { level := .top } arguments with
  | .ok request | .error (.request request) => .ok request
  | .error (.fault fault) => .error fault

end Animation.CommandLine
