import Animation.Store

/-!
Callbacks are the host's side of `call` nodes. What a callback does is data:
its invocations may be recorded under a name, and it may write numbers to
cells, depending on the arguments and on what is in the store. Whatever else a
host remembers from one invocation to the next, it can keep in a cell.
-/

namespace Animation

structure Callback where
  /-- The name an invocation is recorded under, if it is recorded at all. -/
  label? : Option String := none
  /-- What an invocation with these arguments writes, in order. -/
  writes : List Float → Store → List (Ref × Float) := fun _ _ => []

namespace Callback

/-- Does nothing and is not recorded. -/
def silent : Callback := {}

/-- Is recorded and does nothing else. -/
def record (name : String) : Callback := { label? := some name }

/-- Is recorded and stores the last argument, if there is one. -/
def store (name : String) (target : Ref) : Callback :=
  { label? := some name, writes := fun args _ => args.getLast?.toList.map (target, ·) }

end Callback

end Animation
