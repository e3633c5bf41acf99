import Animation.Element.Basic
import Animation.Json.Outline

/-!
Elements in JSON. A number is a number. A reference is an object whose only
member is `ref` with the name, or an array of the name alone. A node is any
other object whose known members occur once each and have the right types, or
an array of all fields in the order of declaration.

Unknown members of a node are ignored. For optional fields null means absent,
but a list of operands is never null.
-/

namespace Animation

namespace Element

/-- The names of the fields in the order of declaration. -/
def fieldNames : List String :=
  ["kind", "a", "b", "others", "v", "left", "right", "expr", "ifNode", "elseNode", "source",
    "target", "nodes", "args", "callback", "name", "value"]

/-- An optional value: null, or what `decode` makes of it. -/
def optional? {α : Type} (decode : Json → Option α) : Json → Option (Option α)
  | .null => some none
  | json => (decode json).map some

def text? : Json → Option String
  | .string text => some text
  | _ => none

def number? : Json → Option Float
  | .number value => some value.toFloat
  | _ => none

/-- Sets the field of this name; a name of no field sets nothing. `operand` and
`operands` read the same value as an element and as a list of elements, and
only the one that the field takes is asked. -/
def setField? (fields : Fields Element) (name : String) (json : Json)
    (operand : Unit → Option Element) (operands : Unit → Option (List Element)) :
    Option (Fields Element) :=
  let text := optional? text? json
  let child := fun (_ : Unit) => optional? (fun _ => operand ()) json
  match name with
  | "kind" => text.map fun kind => { fields with kind }
  | "a" => (child ()).map fun a => { fields with a }
  | "b" => (child ()).map fun b => { fields with b }
  | "others" => (operands ()).map fun others => { fields with others }
  | "v" => (child ()).map fun v => { fields with v }
  | "left" => (child ()).map fun left => { fields with left }
  | "right" => (child ()).map fun right => { fields with right }
  | "expr" => (child ()).map fun expr => { fields with expr }
  | "ifNode" => (child ()).map fun ifNode => { fields with ifNode }
  | "elseNode" => (child ()).map fun elseNode => { fields with elseNode }
  | "source" => (child ()).map fun source => { fields with source }
  | "target" => text.map fun target => { fields with target }
  | "nodes" => (operands ()).map fun nodes => { fields with nodes }
  | "args" => (operands ()).map fun args => { fields with args }
  | "callback" => text.map fun callback => { fields with callback }
  | "name" => text.map fun name => { fields with name }
  | "value" => (optional? number? json).map fun value => { fields with value }
  | _ => some fields

/-- Whether a known name occurs more than once among these members. -/
def repeatsField (members : List (String × Json)) : Bool :=
  fieldNames.any fun name => 1 < (Json.valuesOf name members).length

mutual

def ofJson? : Json → Option Element
  | .number value => some (.number value.toFloat)
  | .object [("ref", .string name)] => some (.ref name)
  | .object members =>
    if repeatsField members then none else (ofMembers? members).map .node
  | .array [.string name] => some (.ref name)
  | .array items => (ofItems? fieldNames items).map .node
  | _ => none

/-- The fields that these members set. The order of the members does not
matter where none is repeated. -/
def ofMembers? : List (String × Json) → Option (Fields Element)
  | [] => some {}
  | (name, json) :: rest => do
    let fields ← ofMembers? rest
    setField? fields name json (fun _ => ofJson? json) (fun _ => listOfJson? json)

/-- The fields that these items set, one for each name. -/
def ofItems? : List String → List Json → Option (Fields Element)
  | [], [] => some {}
  | name :: names, json :: rest => do
    let fields ← ofItems? names rest
    setField? fields name json (fun _ => ofJson? json) (fun _ => listOfJson? json)
  | _, _ => none

def listOfJson? : Json → Option (List Element)
  | .array items => allOfJson? items
  | _ => none

def allOfJson? : List Json → Option (List Element)
  | [] => some []
  | json :: rest => do
    let first ← ofJson? json
    let others ← allOfJson? rest
    pure (first :: others)

end

/-- The element that a text spells. Every part of the text must be a value,
also one that no field takes. -/
def ofText? (text : String) : Option Element := do
  let outline ← Outline.ofText? text
  let json ← outline.value? Outline.depthLimit
  ofJson? json

end Element

end Animation
