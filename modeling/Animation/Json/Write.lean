import Animation.Decimal.Layout
import Animation.Json.Quoted
import Animation.Json.Value

/-!
JSON values as text, without any blanks. Members are written in their order.
-/

namespace Animation

def JsonNumber.write : JsonNumber → String
  | .natural value => toString value.toNat
  | .negative magnitude => "-" ++ toString magnitude.toNat
  | .real value => Layout.json.write value

namespace Json

mutual

def write : Json → String
  | .null => "null"
  | .bool true => "true"
  | .bool false => "false"
  | .number value => value.write
  | .string value => Quoted.encode value
  | .array items => "[" ++ String.intercalate "," (writeItems items) ++ "]"
  | .object members => "\x7b" ++ String.intercalate "," (writeMembers members) ++ "\x7d"

def writeItems : List Json → List String
  | [] => []
  | item :: rest => write item :: writeItems rest

def writeMembers : List (String × Json) → List String
  | [] => []
  | (name, value) :: rest => (Quoted.encode name ++ ":" ++ write value) :: writeMembers rest

end

end Json

end Animation
