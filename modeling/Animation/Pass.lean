import Animation.Callback
import Animation.Number.Binary64

/-!
A pass computes a value while it reads and writes a store and invokes
callbacks. Its outcome keeps the events in the order in which they happened,
so "what was read", "what was written" and "what was called" are questions
about a list.

The events of two passes in sequence are those of the first followed by those
of the second. Nothing here depends on which expressions give rise to a pass.
-/

namespace Animation

/-- Something that a pass does outside itself. A write is an event whether or
not the cell takes it: derived cells do not. -/
inductive Event where
  | read (source : Ref)
  | write (target : Ref) (value : Float)
  | call (callback : Callback) (args : List Float)

structure Outcome (α : Type) where
  value : α
  store : Store
  events : List Event

def Pass (α : Type) : Type := Store → Outcome α

namespace Pass

variable {α β : Type}

instance : Monad Pass where
  pure value := fun store => ⟨value, store, []⟩
  map f pass := fun store =>
    let ⟨value, after, events⟩ := pass store
    ⟨f value, after, events⟩
  bind first next := fun store =>
    let ⟨value, middle, early⟩ := first store
    let ⟨result, after, late⟩ := next value middle
    ⟨result, after, early ++ late⟩

instance : LawfulMonad Pass where
  map_const := rfl
  id_map _ := rfl
  seqLeft_eq _ _ := by
    funext store
    simp [SeqLeft.seqLeft, Seq.seq, Functor.map]
  seqRight_eq _ _ := by
    funext store
    simp [SeqRight.seqRight, Seq.seq, Functor.map]
  pure_seq _ _ := by
    funext store
    simp [Seq.seq, Functor.map, pure]
  bind_pure_comp _ _ := by
    funext store
    simp [Functor.map, bind, pure]
  bind_map _ _ := rfl
  pure_bind _ _ := by
    funext store
    simp [bind, pure]
  bind_assoc _ _ _ := by
    funext store
    simp [bind, List.append_assoc]

theorem pure_apply (value : α) (store : Store) :
    (pure value : Pass α) store = ⟨value, store, []⟩ := rfl

/-- What the second pass does follows what the first has done. -/
theorem bind_apply (first : Pass α) (next : α → Pass β) (store : Store) :
    (first >>= next) store =
      let early := first store
      let late := next early.value early.store
      ⟨late.value, late.store, early.events ++ late.events⟩ := rfl

/-- Reads a cell, giving NaN where there is no reading. -/
def read (source : Ref) : Pass Float := fun store =>
  let (reading, after) := store.read source
  ⟨reading.getD Number.nan, after, [.read source]⟩

/-- Offers a number to a cell. Whether the cell takes it has no influence on
the rest of the pass. -/
def write (target : Ref) (value : Float) : Pass Unit := fun store =>
  ⟨(), store.put target (some value), [.write target value]⟩

/-- Writes numbers to cells, one after the other. -/
def writeEach : List (Ref × Float) → Pass Unit
  | [] => pure ()
  | (target, value) :: rest => do
    write target value
    writeEach rest

/-- Has this event happen, and does nothing else. -/
def announce (event : Event) : Pass Unit := fun store =>
  ⟨(), store, [event]⟩

/-- Invokes a callback with these arguments. It has been called before it
writes anything. -/
def invoke (callback : Callback) (args : List Float) : Pass Unit := do
  announce (.call callback args)
  fun store => writeEach (callback.writes args store) store

end Pass

/-- The recorded invocations among these events, oldest first. -/
def Event.invocations (events : List Event) : List (String × List Float) :=
  events.filterMap fun
    | .call callback args => callback.label?.map (·, args)
    | _ => none

end Animation
