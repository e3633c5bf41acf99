import Animation.Document
import Animation.Element.OfJson

/-!
Documents and their limits in JSON. A document is an object with the members
`values`, `options` and `root`, of which only the last is required, or an array
of the three in this order. Options are the limits: an object with the member
`maxDepth`, or an array of it alone. Known members occur once, and unknown ones
are skipped.

Skipping goes further in a text: an unknown member of a document or of options
must be well formed there, but it need not be a value.
-/

namespace Animation

namespace Limits

def memberNames : List String := ["maxDepth"]

/-- The limit is a whole number of 64 bits, and is kept exactly. -/
def limit? : Json → Option Limits
  | .number (.natural maxDepth) => some { maxDepth }
  | _ => none

def ofJson? : Json → Option Limits
  | .object members => do
    match ← Json.unique? "maxDepth" members with
    | none => some {}
    | some json => limit? json
  | .array [] => some {}
  | .array [json] => limit? json
  | _ => none

def toJson (limits : Limits) : Json :=
  .object [("maxDepth", .number (.natural limits.maxDepth))]

/-- The outline of options without what is skipped. -/
def relevant (outline : Outline) : Outline :=
  outline.keeping memberNames.contains

def ofText? (text : String) : Option Limits := do
  let outline ← Outline.ofText? text
  let json ← (relevant outline).value? Outline.depthLimit
  ofJson? json

end Limits

namespace Document

def memberNames : List String := ["values", "options", "root"]

/-- An initial content: a number, or null for none. -/
def content? : Json → Option (Option Float)
  | .null => some none
  | .number value => some (some value.toFloat)
  | _ => none

/-- Names with their initial contents. The last of several members with one
name counts, but all of them must be readable. -/
def values? : Json → Option (Std.TreeMap String (Option Float))
  | .object members =>
    members.foldlM (fun values (name, json) => (content? json).map (values.insert name ·)) ∅
  | _ => none

def ofJson? : Json → Option Document
  | .object members => do
    let values ← match ← Json.unique? "values" members with
      | none => some ∅
      | some json => values? json
    let limits ← match ← Json.unique? "options" members with
      | none => some {}
      | some json => Limits.ofJson? json
    let root ← match ← Json.unique? "root" members with
      | none => none
      | some json => Element.ofJson? json
    pure { values, limits, root }
  | .array [values, options, root] => do
    let values ← values? values
    let limits ← Limits.ofJson? options
    let root ← Element.ofJson? root
    pure { values, limits, root }
  | _ => none

/-- The outline of a document without what is skipped in it and in its
options. -/
def relevant (outline : Outline) : Outline :=
  match outline.keeping memberNames.contains with
  | .object members =>
    .object (members.map fun (name, value) =>
      (name, if name = some "options" then Limits.relevant value else value))
  | .array [values, options, root] => .array [values, Limits.relevant options, root]
  | other => other

def ofText? (text : String) : Option Document := do
  let outline ← Outline.ofText? text
  let json ← (relevant outline).value? Outline.depthLimit
  ofJson? json

end Document

end Animation
