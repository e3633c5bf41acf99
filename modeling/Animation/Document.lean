import Animation.Compiler
import Animation.Element.Resolve
import Animation.World

/-!
A document is an expression to be authored and kept outside of the program
that uses it, together with the values it declares. Compiling a document first
declares those of its values that the host has not bound, so the host's own
values take precedence over the document's.
-/

namespace Animation

structure Document where
  /-- Names and initial contents. -/
  values : Std.TreeMap String (Option Float) := ∅
  limits : Limits := {}
  root : Element

namespace Document

/-- Declares a name only if it is not bound yet. -/
def declareNew (world : World) (name : String) (content : Option Float) : World :=
  if world.names.containsValue name then world else (world.declare name content).2

/-- The world with every value of the document bound. -/
def declareValues (document : Document) (world : World) : World :=
  document.values.foldl declareNew world

/-- The program of a document under these names. -/
def program (document : Document) (names : Names) : Except Fault Program := do
  let expression ← document.root.resolve names
  expression.compile document.limits

/-- Compiles a document. Its values are declared in a world set apart, which
the host gets only when the root has compiled. -/
def compile (document : Document) (world : World) : Except Fault Program × World :=
  let staged := document.declareValues world
  match document.program staged.names with
  | .ok program => (.ok program, staged)
  | .error fault => (.error fault, world)

end Document

end Animation
