import Animation.Proofs.Program.Replay

/-!
What passes leave alone. A pass does nothing to a store but read cells and
offer numbers to them, so whatever each of these steps keeps, every pass
keeps, however many passes are made.
-/

namespace Animation

/-- A relation of stores that no single reading or writing leads out of. -/
structure Kept (related : Store → Store → Prop) : Prop where
  refl : ∀ store, related store store
  trans : ∀ {before middle after}, related before middle → related middle after →
    related before after
  read : ∀ ref store, related store (store.read ref).2
  put : ∀ ref value store, related store (store.put ref (some value))

/-- The pass leads from every store to a related one. -/
def Pass.Keeps {α : Type} (related : Store → Store → Prop) (pass : Pass α) : Prop :=
  ∀ store, related store (pass store).store

namespace Kept

variable {α : Type} {related : Store → Store → Prop}

theorem happen (h : Kept related) (event : Event) (store : Store) :
    related store (store.happen event) := by
  cases event with
  | read source => exact h.read source store
  | write target value => exact h.put target value store
  | call callback args => exact h.refl store

theorem replay (h : Kept related) (events : List Event) (store : Store) :
    related store (store.replay events) := by
  induction events generalizing store with
  | nil => exact h.refl store
  | cons event rest ih => exact h.trans (h.happen event store) (ih _)

theorem keeps (h : Kept related) {pass : Pass α} (hpass : pass.Replays) :
    Pass.Keeps related pass := by
  intro store
  rw [hpass]
  exact h.replay _ store

end Kept

end Animation
