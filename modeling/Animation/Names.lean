import Animation.Callback
import Animation.Fault
import Std.Data.TreeMap

/-!
Names for cells and callbacks. The two kinds of names are independent of each
other. Binding a name again replaces what it stood for, and whoever has looked
the name up before keeps the cell or callback found then.

Names are ordered by their code points, which is also the byte order of their
UTF-8.
-/

namespace Animation

structure Names where
  values : Std.TreeMap String Ref := ∅
  callbacks : Std.TreeMap String Callback := ∅

namespace Names

def insertValue (name : String) (source : Ref) (names : Names) : Names :=
  { names with values := names.values.insert name source }

def insertCallback (name : String) (callback : Callback) (names : Names) : Names :=
  { names with callbacks := names.callbacks.insert name callback }

def containsValue (name : String) (names : Names) : Bool :=
  names.values.contains name

def value (name : String) (names : Names) : Except Fault Ref :=
  match names.values[name]? with
  | some source => .ok source
  | none => .error (.unknownValue name)

def callback (name : String) (names : Names) : Except Fault Callback :=
  match names.callbacks[name]? with
  | some callback => .ok callback
  | none => .error (.unknownCallback name)

theorem value_insertValue (name other : String) (source : Ref) (names : Names) :
    (names.insertValue name source).value other =
      if name = other then .ok source else names.value other := by
  by_cases h : name = other
  · simp [insertValue, value, h]
  · simp [insertValue, value, Std.TreeMap.getElem?_insert, h]

theorem callback_insertCallback (name other : String) (host : Callback) (names : Names) :
    (names.insertCallback name host).callback other =
      if name = other then .ok host else names.callback other := by
  by_cases h : name = other
  · simp [insertCallback, callback, h]
  · simp [insertCallback, callback, Std.TreeMap.getElem?_insert, h]

/-- Reads every bound name once, in the order of the names. -/
def snapshot (names : Names) (store : Store) : List (String × Option Float) × Store :=
  let bound := names.values.toList
  let (readings, after) := store.readAll (bound.map (·.2))
  ((bound.map (·.1)).zip readings, after)

end Names

end Animation
