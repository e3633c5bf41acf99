import Animation.Json.Token

/-!
Outlines: the structure of a JSON text whose numerals have not been turned
into numbers yet. A text has an outline if it is well formed. Whether a part of
it is also a value, with all numbers in range, all strings whole and not too
many containers inside each other, is asked only for the parts that are used.

The outline is built with an explicit stack of open containers, so nesting is
bounded by the length of the text alone.
-/

namespace Animation

inductive Outline where
  | null
  | bool (value : Bool)
  | number (numeral : Numeral)
  | string (text : Option String)
  | array (items : List Outline)
  | object (members : List (Option String × Outline))

namespace Outline

/-- An open container: what it has so far, in reverse, and for an object the
name of the member whose value is being read. -/
inductive Frame where
  | array (done : List Outline)
  | object (done : List (Option String × Outline)) (name : Option String)

/-- What may come next, and the open containers around it. -/
inductive Builder where
  | value (stack : List Frame)
  /-- Just after an opening bracket: a value, or the end of the array. -/
  | firstItem (stack : List Frame)
  /-- Just after an opening brace: a name, or the end of the object. -/
  | firstName (stack : List Frame)
  | name (done : List (Option String × Outline)) (stack : List Frame)
  | colon (done : List (Option String × Outline)) (name : Option String) (stack : List Frame)
  /-- After a complete value: more of the container around it, or its end. -/
  | after (value : Outline) (stack : List Frame)

namespace Builder

/-- A token that begins a value. -/
def begin? (stack : List Frame) : Token → Option Builder
  | .openArray => some (.firstItem stack)
  | .openObject => some (.firstName stack)
  | .null => some (.after .null stack)
  | .bool truth => some (.after (.bool truth) stack)
  | .number numeral => some (.after (.number numeral) stack)
  | .string text => some (.after (.string text) stack)
  | .closeArray | .closeObject | .comma | .colon => none

def step : Builder → Token → Option Builder
  | .value stack, token => begin? stack token
  | .firstItem stack, .closeArray => some (.after (.array []) stack)
  | .firstItem stack, token => begin? (.array [] :: stack) token
  | .firstName stack, .closeObject => some (.after (.object []) stack)
  | .firstName stack, .string text => some (.colon [] text stack)
  | .name done stack, .string text => some (.colon done text stack)
  | .colon done text stack, .colon => some (.value (.object done text :: stack))
  | .after last (.array done :: stack), .comma => some (.value (.array (last :: done) :: stack))
  | .after last (.array done :: stack), .closeArray =>
    some (.after (.array (last :: done).reverse) stack)
  | .after last (.object done text :: stack), .comma => some (.name ((text, last) :: done) stack)
  | .after last (.object done text :: stack), .closeObject =>
    some (.after (.object ((text, last) :: done).reverse) stack)
  | _, _ => none

end Builder

/-- The outline that these tokens spell, if they spell exactly one. -/
def ofTokens? (tokens : List Token) : Option Outline := do
  match ← tokens.foldlM Builder.step (.value []) with
  | .after value [] => some value
  | _ => none

def ofText? (text : String) : Option Outline := do
  let tokens ← Token.scan? text
  ofTokens? tokens

mutual

/-- The value of an outline that has at most `depth` containers inside each
other. -/
def value? (depth : Nat) : Outline → Option Json
  | .null => some .null
  | .bool value => some (.bool value)
  | .number numeral => numeral.value?.map .number
  | .string text => text.map .string
  | .array items =>
    match depth with
    | 0 => none
    | depth + 1 => (values? depth items).map .array
  | .object members =>
    match depth with
    | 0 => none
    | depth + 1 => (memberValues? depth members).map .object

def values? (depth : Nat) : List Outline → Option (List Json)
  | [] => some []
  | item :: rest => do
    let first ← value? depth item
    let others ← values? depth rest
    pure (first :: others)

def memberValues? (depth : Nat) :
    List (Option String × Outline) → Option (List (String × Json))
  | [] => some []
  | (name, outline) :: rest => do
    let name ← name
    let first ← value? depth outline
    let others ← memberValues? depth rest
    pure ((name, first) :: others)

end

/-- How many containers may be inside each other in a value that is used. -/
def depthLimit : Nat := 127

/-- The object without the members that `keep` does not know. Members whose
name is no string stay, because a name is read before it can be unknown. -/
def keeping (keep : String → Bool) : Outline → Outline
  | .object members =>
    .object (members.filter fun (name, _) => (name.map keep).getD true)
  | outline => outline

end Outline

end Animation
