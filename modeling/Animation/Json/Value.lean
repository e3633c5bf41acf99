/-!
JSON values as readers of this library see them. Objects are lists of members
in the order of the text, with repetitions kept, because some readers refuse a
repeated name and others take its last value.
-/

namespace Animation

/-- A number of a JSON value. Whole numbers that fit 64 bits keep their exact
value; all others, negative zero among them, are doubles. -/
inductive JsonNumber where
  | natural (value : UInt64)
  /-- Minus a positive magnitude of at most `2 ^ 63`. -/
  | negative (magnitude : UInt64)
  | real (value : Float)
  deriving DecidableEq

/-- The nearest double. -/
def JsonNumber.toFloat : JsonNumber → Float
  | .natural value => value.toFloat
  | .negative magnitude => -magnitude.toFloat
  | .real value => value

inductive Json where
  | null
  | bool (value : Bool)
  | number (value : JsonNumber)
  | string (value : String)
  | array (items : List Json)
  | object (members : List (String × Json))

namespace Json

/-- A double as JSON has it: NaN and the infinities become null. -/
def ofFloat (value : Float) : Json :=
  if value.isFinite then .number (.real value) else .null

/-- All values of the members with this name, in order. -/
def valuesOf (name : String) (members : List (String × Json)) : List Json :=
  members.filterMap fun (other, value) => if other = name then some value else none

/-- The value of the only member with this name, and `some none` if there is no
such member. A repeated name gives `none`. -/
def unique? (name : String) (members : List (String × Json)) : Option (Option Json) :=
  match valuesOf name members with
  | [] => some none
  | [value] => some (some value)
  | _ => none

end Json

end Animation
