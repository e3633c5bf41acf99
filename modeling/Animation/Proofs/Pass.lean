import Animation.Program

/-!
What the elementary passes do to a store, and which events they leave behind,
written out so that no later proof needs to open them.
-/

namespace Animation

/-- The store after these writes, made one after the other. -/
def Store.putEach (writes : List (Ref × Float)) (store : Store) : Store :=
  writes.foldl (fun store write => store.put write.1 (some write.2)) store

def Event.ofWrites (writes : List (Ref × Float)) : List Event :=
  writes.map fun write => .write write.1 write.2

namespace Pass

theorem map_apply {α β : Type} (convert : α → β) (pass : Pass α) (store : Store) :
    (convert <$> pass) store =
      ⟨convert (pass store).value, (pass store).store, (pass store).events⟩ := rfl

theorem writeEach_apply (writes : List (Ref × Float)) (store : Store) :
    writeEach writes store = ⟨(), store.putEach writes, Event.ofWrites writes⟩ := by
  induction writes generalizing store with
  | nil => rfl
  | cons write rest ih =>
      obtain ⟨target, value⟩ := write
      simp only [writeEach, bind_apply, ih]
      rfl

/-- An invocation is the call itself and then what the callback stores. -/
theorem invoke_apply (callback : Callback) (args : List Float) (store : Store) :
    invoke callback args store =
      ⟨(), store.putEach (callback.writes args store),
        .call callback args :: Event.ofWrites (callback.writes args store)⟩ := by
  simp only [invoke, writeEach_apply]
  rfl

end Pass

end Animation
