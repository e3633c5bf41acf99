import Animation.CommandLine.Assignment
import Animation.CommandLine.Directory
import Animation.Document.OfJson
import Animation.Player

/-!
The two commands. Checking compiles the document of a file. Evaluating also
overrides some of the declared values and then makes passes, with a report
after each. Either command has everything it needs before the first pass, so
it either fails without any effect or does not fail.
-/

namespace Animation.CommandLine

/-- Why a command fails. -/
inductive Failure where
  | file (path : String) (fault : FileFault)
  /-- The file is not text in UTF-8. -/
  | encoding (path : String)
  | parse (path : String)
  | compile (fault : Fault)
  | assign (fault : Fault)
  /-- An assignment names a value that takes none. -/
  | readOnly (name : String)
  deriving DecidableEq, Repr

/-- The state after a pass: its number, its result and all readings. -/
structure Report where
  tick : Nat
  result : Float
  values : List (String × Option Float)

/-- What an evaluation shows: its reports, and the arguments of each call of
the log, both in order. -/
structure Evaluation where
  reports : List Report
  log : List (List Float)

/-- The world that a command gives to a document. It has no values, and one
callback, which records its arguments. -/
def hostWorld : World :=
  { names := Names.insertCallback "log" (.record "log") {} }

def openDocument (read : String → Except FileFault ByteArray) (path : String) :
    Except Failure Document := do
  let bytes ← (read path).mapError (.file path)
  match String.fromUTF8? bytes with
  | none => .error (.encoding path)
  | some text =>
    match Document.ofText? text with
    | none => .error (.parse path)
    | some document => .ok document

def compileDocument (document : Document) : Except Failure (Program × World) :=
  match document.compile hostWorld with
  | (.ok program, world) => .ok (program, world)
  | (.error fault, _) => .error (.compile fault)

/-- Assigns one value after the other. -/
def assignAll (world : World) : List Assignment → Except Failure World
  | [] => .ok world
  | assignment :: rest =>
    match world.assign assignment.name assignment.value with
    | (.error fault, _) => .error (.assign fault)
    | (.ok taken, after) =>
      if taken then assignAll after rest else .error (.readOnly assignment.name)

/-- Makes `count` passes with a snapshot after each. The first has the number
`tick`. -/
def report (player : Player) (world : World) (tick : Nat) : Nat → Evaluation
  | 0 => ⟨[], []⟩
  | count + 1 =>
    let ((result, player), events, world) := world.perform player.tick
    let (values, world) := world.snapshot
    let ⟨reports, log⟩ := report player world (tick + 1) count
    ⟨{ tick, result, values } :: reports, (Event.invocations events).map (·.2) ++ log⟩

def check (read : String → Except FileFault ByteArray) (path : String) : Except Failure Unit := do
  let document ← openDocument read path
  let _ ← compileDocument document
  pure ()

def eval (read : String → Except FileFault ByteArray) (path : String) (ticks : Nat)
    (assignments : List Assignment) : Except Failure Evaluation := do
  let document ← openDocument read path
  let (program, world) ← compileDocument document
  let world ← assignAll world assignments
  pure (report { program } world 0 ticks)

end Animation.CommandLine
