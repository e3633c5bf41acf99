import Animation.Expression.Kind

/-!
Why an expression, a document or a name is refused. A fault says what is
wrong with the input; `Fault.message` has its wording, and nothing else in the
library depends on the wording.
-/

namespace Animation

inductive Fault where
  /-- A node of a document names no kind. -/
  | missingKind
  | unknownKind (tag : String)
  | missingOperand (kind : Kind) (field : Field)
  | unknownValue (name : String)
  | unknownCallback (name : String)
  /-- Nodes are nested deeper than the limit allows. -/
  | tooDeep (limit : UInt64)
  /-- The text is not JSON, or not JSON of the form that was expected. -/
  | malformed
  /-- A fault of the host, in its own words. -/
  | other (text : String)
  deriving DecidableEq, Repr

/-- The wording of a fault. Names and tags are quoted but not escaped. What
makes a text malformed is not worded. -/
def Fault.message : Fault → String
  | .missingKind => "missing element type: node has no kind"
  | .unknownKind tag => "unknown node kind \"" ++ tag ++ "\""
  | .missingOperand kind field =>
    "missing operand: `" ++ field.name ++ "` is required by `" ++ kind.tag ++ "`"
  | .unknownValue name => "unknown value \"" ++ name ++ "\""
  | .unknownCallback name => "unknown callback \"" ++ name ++ "\""
  | .tooDeep limit => "expression nesting exceeds depth limit " ++ toString limit.toNat
  | .malformed => "serialization error:"
  | .other text => text

end Animation
