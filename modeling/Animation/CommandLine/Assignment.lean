import Animation.Decimal.Reading
import Animation.Text.Blank

/-!
Assignments on the command line, written `name=value`. The name ends at the
first equals sign, and white space at the ends of both parts does not belong
to them.
-/

namespace Animation.CommandLine

structure Assignment where
  name : String
  value : Float
  deriving DecidableEq

/-- Why a text is no assignment. -/
inductive AssignmentFault where
  | noEquals
  | emptyNumber
  | badNumber
  deriving DecidableEq, Repr

def AssignmentFault.message (text : String) : AssignmentFault → String
  | .noEquals => "expected name=value, got '" ++ text ++ "'"
  | .emptyNumber => "invalid number in '" ++ text ++ "': cannot parse float from empty string"
  | .badNumber => "invalid number in '" ++ text ++ "': invalid float literal"

/-- The parts before and after the first equals sign. -/
def splitEquals? : List Char → Option (List Char × List Char)
  | [] => none
  | c :: rest =>
    if c = '=' then some ([], rest)
    else (splitEquals? rest).map fun (before, after) => (c :: before, after)

def Assignment.ofText (text : String) : Except AssignmentFault Assignment :=
  match splitEquals? text.toList with
  | none => .error .noEquals
  | some (before, after) =>
    let number := String.ofList (Text.trim after)
    match Decimal.read? number with
    | some value => .ok { name := String.ofList (Text.trim before), value }
    | none => .error (if number.isEmpty then .emptyNumber else .badNumber)

end Animation.CommandLine
