import Animation.CommandLine.Arguments
import Animation.CommandLine.Commands
import Animation.Json.Write

/-!
The program as a whole: from its arguments and the files that it can read to
an exit code and the lines that it prints. The code is 0 for success, 1 if a
command fails and 2 if the arguments are refused, and in the last case nothing
is read.
-/

namespace Animation.CommandLine

/-- What a run shows. Each text is printed on a line of its own, or on several
if it has line breaks in it. -/
structure Outcome where
  code : UInt32
  output : List String := []
  errors : List String := []

/-- A failure: what was being done, if that is not clear from the cause, and
the cause, both in words. -/
def Failure.words : Failure → Option String × String
  | .file path fault => (some ("read document '" ++ path ++ "'"), fault.message)
  | .encoding path =>
    (some ("read document '" ++ path ++ "'"), "stream did not contain valid UTF-8")
  | .parse path => (some ("parse document '" ++ path ++ "'"), Fault.malformed.message)
  | .compile fault => (some "compile document", fault.message)
  | .assign fault => (none, fault.message)
  | .readOnly name => (none, "value '" ++ name ++ "' is read-only")

/-- The lines about a failure. Every line of the cause is indented. -/
def Failure.lines (failure : Failure) : List String :=
  match failure.words with
  | (none, cause) => ["Error: " ++ cause]
  | (some context, cause) =>
    ["Error: " ++ context, "", "Caused by:"] ++
      (cause.splitOn "\n").map ("    " ++ ·)

def Report.toJson (report : Report) : Json :=
  .object [
    ("tick", .number (.natural (UInt64.ofNat report.tick))),
    ("result", Json.ofFloat report.result),
    ("values", .object (report.values.map fun (name, reading) =>
      (name, reading.elim .null Json.ofFloat)))]

/-- One call of the log. -/
def logLine (args : List Float) : String :=
  "log: [" ++ String.intercalate ", " (args.map Layout.plain.write) ++ "]"

/-- What is printed when help is asked for. -/
def helpLines : List String :=
  ["Usage: " ++ programName ++ " [OPTIONS] <COMMAND>",
    "",
    "Commands:",
    "  eval   Compile a document and run evaluation passes over it",
    "  check  Compile a document without evaluating it",
    "  help   Print this message"]

def failed (failure : Failure) : Outcome :=
  { code := 1, errors := failure.lines }

def answer (read : String → Except FileFault ByteArray) : Request → Outcome
  | .help => { code := 0, output := helpLines }
  | .version => { code := 0, output := [programName ++ " " ++ programVersion] }
  | .check path =>
    match check read path with
    | .ok () => { code := 0, output := ["ok: " ++ path] }
    | .error failure => failed failure
  | .eval path ticks assignments =>
    match eval read path ticks assignments with
    | .ok evaluation =>
      { code := 0
        output := evaluation.reports.map fun report => report.toJson.write
        errors := evaluation.log.map logLine }
    | .error failure => failed failure

def run (read : String → Except FileFault ByteArray) (arguments : List String) : Outcome :=
  match readArguments arguments with
  | .ok request => answer read request
  | .error fault => { code := 2, errors := [fault.message] }

end Animation.CommandLine
