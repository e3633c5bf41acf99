import Animation.Proofs.Document.Declaration
import Animation.Proofs.Program.Frame
import Animation.Proofs.Store

/-!
How the world of a host changes. Operations that fail leave it alone, which
has to be shown of each, since each hands a world back also when it fails.
Operations that do not fail may bind names, make cells and change what is in
them, but names go on standing for cells that are there.
-/

namespace Animation.World

/-- When the operation fails, the world is as it was before. -/
def Atomic {α : Type} (operation : World → Except Fault α × World) : Prop :=
  ∀ world fault, (operation world).1 = .error fault → (operation world).2 = world

theorem atomic_share (name other : String) : Atomic (share name other) := by
  intro world fault h
  unfold share at h ⊢
  split
  · rfl
  · next hvalue => simp [hvalue] at h

theorem atomic_assign (name : String) (value : Float) : Atomic (assign name value) := by
  intro world fault h
  unfold assign at h ⊢
  split
  · rfl
  · next hvalue => simp [hvalue] at h

theorem atomic_read (name : String) : Atomic (read name) := by
  intro world fault h
  unfold read at h ⊢
  split
  · rfl
  · next hvalue => simp [hvalue] at h

theorem atomic_compile (document : Document) : Atomic document.compile := by
  intro world fault h
  rw [Document.compile_snd, h]

/-- What a cell does not take does not change the world. -/
theorem assign_not_taken {name : String} {value : Float} {world : World}
    (h : (world.assign name value).1 = .ok false) : (world.assign name value).2 = world := by
  unfold assign at h ⊢
  split
  · rfl
  · next target htarget =>
      have hslot : world.store.isSlot target = false := by
        simpa [htarget, Store.write] using h
      simp [Store.write, Store.put, hslot]

/-! ### Going on with a world -/

/-- Names keep their meaning from `before` to `after`, and stand for cells
that are there if they did so before. No cell is lost. -/
structure Follows (before after : World) : Prop where
  names : before.names.Extends after.names
  sound : before.Sound → after.Sound
  grows : before.store.cells.size ≤ after.store.cells.size

theorem Follows.refl (world : World) : world.Follows world :=
  ⟨.refl _, id, Nat.le_refl _⟩

theorem Follows.trans {before middle after : World} (hfirst : before.Follows middle)
    (hsecond : middle.Follows after) : before.Follows after :=
  ⟨hfirst.names.trans hsecond.names, hsecond.sound ∘ hfirst.sound,
    Nat.le_trans hfirst.grows hsecond.grows⟩

/-- A world that differs only in what is in its cells. -/
theorem follows_store {world : World} {store : Store}
    (hsize : world.store.cells.size = store.cells.size) :
    world.Follows { world with store } := by
  refine ⟨.refl _, ?_, Nat.le_of_eq hsize⟩
  intro hsound name cell hcell
  exact hsize ▸ hsound name cell hcell

theorem kept_size : Kept fun before after => before.cells.size = after.cells.size where
  refl _ := rfl
  trans := Eq.trans
  read ref store := (Store.size_read ref store).symm
  put ref value store := (Store.size_put ref (some value) store).symm

theorem follows_perform {α : Type} {pass : Pass α} (hpass : pass.Replays) (world : World) :
    world.Follows (world.perform pass).2.2 :=
  follows_store (kept_size.keeps hpass world.store)

/-- A tick is one pass of the program, counted by the player. -/
theorem perform_tick (player : Player) (world : World) :
    world.perform player.tick =
      let outcome := player.program.run world.store
      ((outcome.value, { player with passes := player.passes + 1 }), outcome.events,
        { world with store := outcome.store }) := by
  simp only [perform, Player.tick, Pass.bind_apply, Pass.pure_apply, List.append_nil]

/-- The world in the middle of a pass that has had these events so far. -/
def midway (events : List Event) (world : World) : World :=
  { world with store := world.store.replay events }

/-- At the end of a pass all of its events have happened. -/
theorem perform_midway {α : Type} {pass : Pass α} (hpass : pass.Replays) (world : World) :
    (world.perform pass).2.2 = world.midway (world.perform pass).2.1 := by
  simp only [perform, midway, hpass world.store]

theorem read_of_value {name : String} {cell : Ref} {world : World}
    (hcell : world.names.value name = .ok cell) :
    (world.read name).1 = .ok (world.store.read cell).1 := by
  simp only [read, hcell]

theorem follows_snapshot (world : World) : world.Follows world.snapshot.2 :=
  follows_store (Store.size_readAll _ world.store).symm

theorem follows_declareValues (document : Document) (world : World) :
    world.Follows (document.declareValues world) := by
  have hdeclares := document.declares world
  exact ⟨hdeclares.names, hdeclares.sound, hdeclares.grows⟩

theorem follows_compile (document : Document) (world : World) :
    world.Follows (document.compile world).2 := by
  rw [Document.compile_snd]
  split
  · exact follows_declareValues document world
  · exact .refl world

/-! ### Binding names anew -/

theorem sound_insertValue {world : World} {store : Store} {source : Ref} (hsound : world.Sound)
    (hgrows : world.store.cells.size ≤ store.cells.size)
    (hsource : source.index < store.cells.size) (name : String) :
    World.Sound { store, names := world.names.insertValue name source } := by
  intro other cell hcell
  rw [Names.value_insertValue] at hcell
  split at hcell
  · cases hcell
    exact hsource
  · exact Nat.lt_of_lt_of_le (hsound other cell hcell) hgrows

theorem sound_declare {world : World} (hsound : world.Sound) (name : String)
    (content : Option Float) : (world.declare name content).2.Sound := by
  apply sound_insertValue hsound
  · simp
  · simp [Store.next]

theorem sound_derive {world : World} (hsound : world.Sound) (name : String)
    (derivation : Derivation) : (world.derive name derivation).2.Sound := by
  apply sound_insertValue hsound
  · simp
  · simp [Store.next]

theorem sound_share {world : World} (hsound : world.Sound) (name other : String) :
    (world.share name other).2.Sound := by
  unfold share
  split
  · exact hsound
  · next source hsource =>
      exact sound_insertValue hsound (Nat.le_refl _) (hsound other source hsource) name

theorem store_share (name other : String) (world : World) :
    (world.share name other).2.store = world.store := by
  unfold share
  split
  · rfl
  · rfl

theorem names_assign (name : String) (value : Float) (world : World) :
    (world.assign name value).2.names = world.names := by
  unfold assign
  split
  · rfl
  · rfl

theorem size_assign (name : String) (value : Float) (world : World) :
    (world.assign name value).2.store.cells.size = world.store.cells.size := by
  unfold assign
  split
  · rfl
  · next target _ => exact Store.size_put target (some value) world.store

theorem follows_assign (name : String) (value : Float) (world : World) :
    world.Follows (world.assign name value).2 := by
  unfold assign
  split
  · exact .refl _
  · next target _ => exact follows_store (Store.size_put target (some value) world.store).symm

theorem follows_read (name : String) (world : World) : world.Follows (world.read name).2 := by
  unfold read
  split
  · exact .refl _
  · next source _ => exact follows_store (Store.size_read source world.store).symm

end Animation.World
