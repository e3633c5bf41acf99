import Animation.Names
import Animation.Pass

/-!
A world is what a host owns: the cells and the names it has given them. An
operation that can fail gives a world back in either case, since the host goes
on with it.
-/

namespace Animation

structure World where
  store : Store := .empty
  names : Names := {}

namespace World

/-- Binds a name to a new slot with this content, replacing what it was bound
to. The new slot is reachable under no other name. -/
def declare (name : String) (content : Option Float) (world : World) : Ref × World :=
  let (source, store) := world.store.allocate content
  (source, { store, names := world.names.insertValue name source })

/-- Binds a name to a new derived cell. -/
def derive (name : String) (derivation : Derivation) (world : World) : Ref × World :=
  let (source, store) := world.store.derive derivation
  (source, { store, names := world.names.insertValue name source })

/-- Binds a name to what another name stands for. -/
def share (name other : String) (world : World) : Except Fault Unit × World :=
  match world.names.value other with
  | .error fault => (.error fault, world)
  | .ok source => (.ok (), { world with names := world.names.insertValue name source })

/-- Writes a number under a name, and tells whether the cell took it. -/
def assign (name : String) (value : Float) (world : World) : Except Fault Bool × World :=
  match world.names.value name with
  | .error fault => (.error fault, world)
  | .ok target =>
    let (taken, store) := world.store.write target value
    (.ok taken, { world with store })

/-- Reads the cell that a name stands for. -/
def read (name : String) (world : World) : Except Fault (Option Float) × World :=
  match world.names.value name with
  | .error fault => (.error fault, world)
  | .ok source =>
    let (reading, store) := world.store.read source
    (.ok reading, { world with store })

/-- The readings of all names, in order. -/
def snapshot (world : World) : List (String × Option Float) × World :=
  let (readings, store) := world.names.snapshot world.store
  (readings, { world with store })

/-- Runs a pass on the store. -/
def perform {α : Type} (pass : Pass α) (world : World) : α × List Event × World :=
  let outcome := pass world.store
  (outcome.value, outcome.events, { world with store := outcome.store })

end World

end Animation
