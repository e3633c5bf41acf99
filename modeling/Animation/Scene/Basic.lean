import Animation.Document.OfJson
import Animation.Player

/-!
A scene is everything a host works with: a world, the cells it has declared,
documents it keeps, players of the programs it has compiled, and one compiler
that it uses again and again. What the host can do is an action; every action
has a reply, and a failing action changes nothing.
-/

namespace Animation

structure Scene where
  world : World := {}
  /-- The cells of `declare` actions, in order. A cell keeps its place here also
  when its name is bound to something else. -/
  handles : Array Ref := #[]
  documents : Std.TreeMap String Document := ∅
  players : Array Player := #[]
  compiler : Compiler := {}
  /-- Whether a snapshot is taken after each evaluation. Snapshots read all
  names, which derived cells count as readings. -/
  snapshots : Bool := true

namespace Scene

/-- Which compiler an expression is compiled with. -/
inductive Route where
  /-- A new one with the default limits. -/
  | fresh
  /-- The compiler of the scene. -/
  | reused

inductive Action where
  | declare (name : String) (content : Option Float)
  | derive (name : String) (derivation : Derivation)
  | share (name other : String)
  | bindCallback (name : String) (callback : Callback)
  | invoke (name : String) (args : List Float)
  /-- Sets or clears the cell of a handle, and reads it. -/
  | put (handle : Nat) (content : Option Float)
  | peek (handle : Nat)
  | assign (name : String) (value : Float)
  | read (name : String)
  | containsValue (name : String)
  | findCallback (name : String)
  | describe (name : String)
  | snapshot
  /-- Compiles a document from its text. -/
  | load (text : String)
  /-- Keeps a document under a name. -/
  | keep (name text : String)
  | compileKept (name : String)
  | useCompiler (limits : Limits)
  | compile (expression : Expression) (route : Route)
  | constant (value : Float)
  /-- Actions on a player are on the newest one unless they say on which. -/
  | tick (player : Option Nat)
  | play (count : Nat) (player : Option Nat)
  | passes (player : Option Nat)
  | restart (player : Option Nat)

/-- What an evaluation has computed. -/
inductive Result where
  | nothing
  | one (value : Float)
  | many (values : List Float)

inductive Reply where
  | done
  | handle (index : Nat)
  | root (index : Nat)
  | reading (content : Option Float)
  | written (taken : Bool)
  | present (found : Bool)
  | description (text : String)
  | readings (all : List (String × Option Float))
  | passes (count : Nat)
  /-- The result, the recorded invocations, and the readings afterwards if the
  scene takes snapshots. -/
  | evaluated (result : Result) (invocations : List (String × List Float))
      (readings : Option (List (String × Option Float)))
  | refused (fault : Fault)
  | noPlayer
  | noDocument

end Scene

end Animation
