import Animation.Proofs.Closed
import Animation.Proofs.Scene.Loading

/-!
The scenes that a host can get to. It starts with an empty one and has only
what its own actions have given to it; a callback or a tree of its own making
cannot have to do with a cell that is not there yet. Hence nothing in such a
scene, neither a name, nor a handle, nor a player, reaches beyond its store.
-/

namespace Animation.Scene

/-- The host has all that it hands over with the action. -/
def Holds (scene : Scene) : Action → Prop
  | .bindCallback _ callback => callback.Within scene.world.store.cells.size
  | .compile expression _ => expression.Within scene.world.store.cells.size
  | _ => True

inductive Reachable : Scene → Prop
  | start (snapshots : Bool) : Reachable { snapshots }
  | act {scene : Scene} {action : Action} :
      Reachable scene → scene.Holds action → Reachable (scene.act action).2
  | load {scene : Scene} (document : Document) :
      Reachable scene → Reachable (scene.load document).2

/-- Nothing in the scene reaches beyond the cells that are there. -/
structure Closed (scene : Scene) : Prop where
  world : scene.world.Closed
  handles : ∀ ref ∈ scene.handles, ref.index < scene.world.store.cells.size
  players : ∀ player ∈ scene.players, player.program.Within scene.world.store.cells.size

/-- A scene that has no handle and no program more than before. -/
theorem Closed.extend {scene after : Scene} (h : scene.Closed) (hworld : after.world.Closed)
    (hgrows : scene.world.store.cells.size ≤ after.world.store.cells.size)
    (hhandles : after.handles = scene.handles)
    (hplayers : ∀ player ∈ after.players, ∃ old ∈ scene.players, player.program = old.program) :
    after.Closed where
  world := hworld
  handles ref href := Nat.lt_of_lt_of_le (h.handles ref (hhandles ▸ href)) hgrows
  players player hplayer := by
    obtain ⟨old, hold, hsame⟩ := hplayers player hplayer
    exact hsame ▸ (h.players old hold).mono hgrows

theorem Closed.enter {scene : Scene} (h : scene.Closed) {world : World} (hworld : world.Closed)
    (hgrows : scene.world.store.cells.size ≤ world.store.cells.size) :
    Closed { scene with world } :=
  h.extend hworld hgrows rfl fun player hplayer => ⟨player, hplayer, rfl⟩

theorem Closed.follows {scene : Scene} (h : scene.Closed) {world : World}
    (hworld : scene.world.Follows world) : Closed { scene with world } :=
  h.enter (h.world.follows hworld) hworld.grows

theorem closed_addPlayer {scene : Scene} (h : scene.Closed) {program : Program}
    (hprogram : program.Within scene.world.store.cells.size) :
    (addPlayer program scene).2.Closed where
  world := h.world
  handles := h.handles
  players player hplayer := by
    rcases Array.mem_push.mp hplayer with hold | rfl
    · exact h.players player hold
    · exact hprogram

theorem closed_conclude {scene : Scene} (h : scene.Closed) (result : Result)
    (events : List Event) : (conclude result events scene).2.Closed := by
  unfold conclude
  split
  · exact h.follows (World.follows_snapshot scene.world)
  · exact h

theorem closed_peekHandle {scene : Scene} (h : scene.Closed) (handle : Nat) :
    (peekHandle handle scene).2.Closed := by
  unfold peekHandle
  split
  · exact h
  · next ref _ =>
      exact h.follows (World.follows_store (Store.size_read ref scene.world.store).symm)

theorem closed_load {scene : Scene} (h : scene.Closed) (document : Document) :
    (scene.load document).2.Closed := by
  cases hcompile : (document.compile scene.world).1 with
  | error fault => rwa [load_of_error hcompile]
  | ok program =>
      rw [load_of_ok hcompile]
      apply closed_addPlayer (h.follows (World.follows_compile document scene.world))
      exact h.world.within_compile hcompile

/-- A pass of a player gives back a player of the same program. -/
theorem closed_perform {α : Type} {scene : Scene} (h : scene.Closed)
    {pass : Player → Pass (α × Player)} (hpass : ∀ player, (pass player).Replays)
    (hprogram : ∀ player store, (pass player store).value.2.program = player.program)
    (result : α → Result) (player : Option Nat) :
    (perform pass result player scene).2.Closed := by
  cases hplayer : scene.players[scene.playerIndex player]? with
  | none =>
      simp only [perform, hplayer]
      exact h
  | some found =>
      simp only [perform, hplayer]
      apply closed_conclude
      have hfollows := World.follows_perform (hpass found) scene.world
      refine h.extend (h.world.follows hfollows) hfollows.grows rfl ?_
      intro other hother
      rcases Array.mem_or_eq_of_mem_setIfInBounds hother with hold | rfl
      · exact ⟨other, hold, rfl⟩
      · exact ⟨found, Array.mem_of_getElem? hplayer, hprogram found scene.world.store⟩

theorem closed_compile {scene : Scene} (h : scene.Closed) {expression : Expression}
    (hexpression : expression.Within scene.world.store.cells.size) (route : Route) :
    (scene.act (.compile expression route)).2.Closed := by
  cases route with
  | fresh =>
      apply orRefuse_snd h
      intro program hcompile
      exact closed_addPlayer h (hexpression.compile hcompile)
  | reused =>
      simp only [act, Compiler.compile_snd]
      apply orRefuse_snd h
      intro program hcompile
      exact closed_addPlayer h (hexpression.compile hcompile)

theorem closed_declare {scene : Scene} (h : scene.Closed) (name : String)
    (content : Option Float) : (scene.act (.declare name content)).2.Closed := by
  have hgrows : scene.world.store.cells.size <
      (scene.world.declare name content).2.store.cells.size := by
    simp [World.declare, Store.allocate]
  have hentered := h.enter (World.closed_declare h.world name content) (Nat.le_of_lt hgrows)
  refine ⟨hentered.world, ?_, hentered.players⟩
  intro ref href
  rcases Array.mem_push.mp href with hold | rfl
  · exact hentered.handles ref hold
  · exact hgrows

/-- Whatever a host does with what it has, nothing reaches beyond the store. -/
theorem closed_act {scene : Scene} (h : scene.Closed) {action : Action}
    (hholds : scene.Holds action) : (scene.act action).2.Closed := by
  cases action with
  | declare name content => exact closed_declare h name content
  | derive name derivation =>
      exact h.enter (World.closed_derive h.world name derivation)
        (by simp [World.derive, Store.derive])
  | share name other =>
      have hshare : Closed { scene with world := (scene.world.share name other).2 } :=
        h.enter (World.closed_share h.world name other) (by rw [World.store_share])
      exact orRefuse_snd hshare fun _ _ => hshare
  | bindCallback name callback =>
      exact h.enter (World.closed_insertCallback h.world name hholds) (Nat.le_refl _)
  | invoke name args =>
      apply orRefuse_snd h
      intro callback _
      exact closed_conclude
        (h.follows (World.follows_perform (Pass.replays_invoke callback args) scene.world)) _ _
  | put handle content =>
      simp only [act]
      split
      · exact h
      · next ref _ =>
          have hput := World.follows_store (Store.size_put ref content scene.world.store).symm
          exact closed_peekHandle (h.follows hput) handle
  | peek handle => exact closed_peekHandle h handle
  | assign name value =>
      have hassign := h.follows (World.follows_assign name value scene.world)
      exact orRefuse_snd hassign fun _ _ => hassign
  | read name =>
      have hread := h.follows (World.follows_read name scene.world)
      exact orRefuse_snd hread fun _ _ => hread
  | containsValue name => exact h
  | findCallback name | describe name => exact orRefuse_snd h fun _ _ => h
  | snapshot => exact h.follows (World.follows_snapshot scene.world)
  | load text | compileKept text =>
      simp only [act]
      split
      · exact h
      · exact closed_load h _
  | keep name text =>
      simp only [act]
      split
      · exact h
      · exact ⟨h.world, h.handles, h.players⟩
  | useCompiler limits => exact ⟨h.world, h.handles, h.players⟩
  | compile expression route => exact closed_compile h hholds route
  | constant value => exact closed_addPlayer h .constant
  | tick player => exact closed_perform h Player.replays_tick (fun _ _ => rfl) _ player
  | play count player =>
      have hpass := fun found => Player.replays_play found count
      exact closed_perform h hpass (fun _ _ => rfl) _ player
  | passes player =>
      simp only [act]
      split
      · exact h
      · exact h
  | restart player => exact closed_perform h Player.replays_restart (fun _ _ => rfl) _ player

theorem Reachable.closed {scene : Scene} (h : scene.Reachable) : scene.Closed := by
  induction h with
  | start snapshots => exact ⟨World.closed_empty, nofun, nofun⟩
  | act _ hholds ih => exact closed_act ih hholds
  | load document _ ih => exact closed_load ih document

end Animation.Scene
