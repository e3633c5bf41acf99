import Animation.Proofs.Document.Loading
import Animation.Proofs.World
import Animation.Scene.Act

/-!
Documents loaded into one scene, one after the other, while the players of
those that have compiled make their passes. Whatever is loaded and played, and
in whatever order, names keep standing for the cells that they stood for.
-/

namespace Animation.Scene

theorem follows_conclude {before : World} {scene : Scene} (h : before.Follows scene.world)
    (result : Result) (events : List Event) :
    before.Follows (conclude result events scene).2.world := by
  unfold conclude
  split
  · exact h.trans (World.follows_snapshot scene.world)
  · exact h

theorem follows_peekHandle (handle : Nat) (scene : Scene) :
    scene.world.Follows (peekHandle handle scene).2.world := by
  unfold peekHandle
  split
  · exact .refl _
  · next ref _ => exact World.follows_store (Store.size_read ref scene.world.store).symm

theorem follows_perform {α : Type} {pass : Player → Pass (α × Player)}
    (hpass : ∀ player, (pass player).Replays) (result : α → Result) (player : Option Nat)
    (scene : Scene) : scene.world.Follows (perform pass result player scene).2.world := by
  cases hplayer : scene.players[scene.playerIndex player]? with
  | none =>
      simp only [perform, hplayer]
      exact .refl _
  | some found =>
      simp only [perform, hplayer]
      exact follows_conclude (World.follows_perform (hpass found) scene.world) _ _

theorem load_of_ok {document : Document} {scene : Scene} {program : Program}
    (h : (document.compile scene.world).1 = .ok program) :
    scene.load document = (.root scene.players.size,
      { scene with
        world := (document.compile scene.world).2
        players := scene.players.push { program } }) := by
  simp only [load, attempt, h, orRefuse, addPlayer]

theorem load_of_error {document : Document} {scene : Scene} {fault : Fault}
    (h : (document.compile scene.world).1 = .error fault) :
    scene.load document = (.refused fault, scene) := by
  have hworld := World.atomic_compile document scene.world fault h
  simp only [load, attempt, h, orRefuse, hworld]

theorem world_load (document : Document) (scene : Scene) :
    (scene.load document).2.world = (document.compile scene.world).2 := by
  cases h : (document.compile scene.world).1 with
  | ok program => rw [load_of_ok h]
  | error fault => rw [load_of_error h, World.atomic_compile document scene.world fault h]

theorem follows_load (document : Document) (scene : Scene) :
    scene.world.Follows (scene.load document).2.world := by
  rw [world_load]
  exact World.follows_compile document scene.world

/-- Whatever holds after a failure and after going on holds in either case. -/
theorem orRefuse_snd {α : Type} {scene : Scene} {outcome : Except Fault α}
    {next : α → Reply × Scene} {holds : Scene → Prop} (hscene : holds scene)
    (hnext : ∀ value, outcome = .ok value → holds (next value).2) :
    holds (scene.orRefuse outcome next).2 := by
  cases outcome with
  | ok value => exact hnext value rfl
  | error fault => exact hscene

theorem world_orRefuse {α : Type} {scene : Scene} {outcome : Except Fault α}
    {next : α → Reply × Scene} {holds : World → Prop} (hscene : holds scene.world)
    (hnext : ∀ value, holds (next value).2.world) :
    holds (scene.orRefuse outcome next).2.world :=
  @orRefuse_snd α scene outcome next (fun after => holds after.world) hscene
    fun value _ => hnext value

/-- Actions that give a name another meaning than it had. -/
def Action.isNaming : Action → Bool
  | .declare .. | .derive .. | .share .. | .bindCallback .. => true
  | _ => false

/-- Whatever else a host does, names keep their meaning. -/
theorem follows_act (scene : Scene) {action : Action} (h : action.isNaming = false) :
    scene.world.Follows (scene.act action).2.world := by
  cases action with
  | declare _ _ | derive _ _ | share _ _ | bindCallback _ _ => cases h
  | invoke name args =>
      apply world_orRefuse (.refl _)
      intro callback
      exact follows_conclude
        (World.follows_perform (Pass.replays_invoke callback args) scene.world) _ _
  | put handle content =>
      simp only [act]
      split
      · exact .refl _
      · next ref _ =>
          have hput := World.follows_store (Store.size_put ref content scene.world.store).symm
          have hpeek := follows_peekHandle handle
            { scene with world := { scene.world with store := scene.world.store.put ref content } }
          exact hput.trans hpeek
  | peek handle => exact follows_peekHandle handle scene
  | assign name value =>
      have hassign := World.follows_assign name value scene.world
      exact world_orRefuse hassign fun _ => hassign
  | read name =>
      have hread := World.follows_read name scene.world
      exact world_orRefuse hread fun _ => hread
  | containsValue name => exact .refl _
  | findCallback name | describe name => exact world_orRefuse (.refl _) fun _ => .refl _
  | snapshot => exact World.follows_snapshot scene.world
  | load text | compileKept text =>
      simp only [act]
      split
      · exact .refl _
      · exact follows_load _ scene
  | keep name text =>
      simp only [act]
      split
      · exact .refl _
      · exact .refl _
  | useCompiler limits => exact .refl _
  | compile expression route =>
      cases route with
      | fresh => exact world_orRefuse (.refl _) fun _ => .refl _
      | reused => exact world_orRefuse (.refl scene.world) fun _ => .refl _
  | constant value => exact .refl _
  | tick player => exact follows_perform Player.replays_tick _ player scene
  | play count player =>
      exact follows_perform (fun found => Player.replays_play found count) _ player scene
  | passes player =>
      simp only [act]
      split
      · exact .refl _
      · exact .refl _
  | restart player => exact follows_perform Player.replays_restart _ player scene

/-- In every scene that a host can get to, names stand for cells. -/
theorem sound_act {scene : Scene} (hsound : scene.world.Sound) (action : Action) :
    (scene.act action).2.world.Sound := by
  cases action with
  | declare name content => exact World.sound_declare hsound name content
  | derive name derivation => exact World.sound_derive hsound name derivation
  | share name other =>
      exact world_orRefuse (World.sound_share hsound name other) fun _ =>
        World.sound_share hsound name other
  | bindCallback name callback => exact hsound
  | _ => exact (follows_act scene rfl).sound hsound

theorem sound_foldl_act (actions : List Action) :
    (actions.foldl (fun scene action => (scene.act action).2) ({} : Scene)).world.Sound := by
  have hall : ∀ scene : Scene, scene.world.Sound →
      (actions.foldl (fun scene action => (scene.act action).2) scene).world.Sound := by
    induction actions with
    | nil => exact fun _ hsound => hsound
    | cons action rest ih => exact fun scene hsound => ih _ (sound_act hsound action)
  apply hall
  intro name cell hcell
  simp [Names.value] at hcell

/-- What may happen while documents are being loaded. -/
inductive Step where
  | load (document : Document)
  | tick (player : Option Nat)
  | play (count : Nat) (player : Option Nat)
  | restart (player : Option Nat)

def advance (scene : Scene) : Step → Scene
  | .load document => (scene.load document).2
  | .tick player => (scene.act (.tick player)).2
  | .play count player => (scene.act (.play count player)).2
  | .restart player => (scene.act (.restart player)).2

theorem follows_advance (scene : Scene) (step : Step) :
    scene.world.Follows (scene.advance step).world := by
  cases step with
  | load document => exact follows_load document scene
  | tick player => exact follows_perform Player.replays_tick _ player scene
  | play count player =>
      exact follows_perform (fun found => Player.replays_play found count) _ player scene
  | restart player => exact follows_perform Player.replays_restart _ player scene

theorem follows_foldl_advance (steps : List Step) (scene : Scene) :
    scene.world.Follows (steps.foldl advance scene).world := by
  induction steps generalizing scene with
  | nil => exact .refl _
  | cons step rest ih => exact (follows_advance scene step).trans (ih _)

/-- Take any run of loads and passes, and a load anywhere in it. Over the
whole run names keep their meaning and callbacks stay as they are. If the
document does not compile the scene stays the same; if it compiles, the world
has its values besides, each in a cell of its own, and loading it once more at
the end of the run adds another player of the same program and nothing else. -/
theorem load_in_run (scene : Scene) (hsound : scene.world.Sound) (earlier later : List Step)
    (document : Document) :
    let start := earlier.foldl advance scene
    let loaded := start.advance (.load document)
    let final := later.foldl advance loaded
    scene.world.names.Extends start.world.names ∧
      start.world.names.Extends final.world.names ∧
      match (document.compile start.world).1 with
      | .error _ => loaded = start
      | .ok program =>
        document.Loaded start.world loaded.world ∧
          loaded.players = start.players.push { program } ∧
          final.load document = (.root final.players.size,
            { final with players := final.players.push { program } }) := by
  intro start loaded final
  have hstart : scene.world.Follows start.world := follows_foldl_advance earlier scene
  have hfinal : loaded.world.Follows final.world := follows_foldl_advance later loaded
  refine ⟨hstart.names, ((follows_load document start).trans hfinal).names, ?_⟩
  split
  · next fault h =>
      simp only [loaded, advance, load_of_error h]
  · next program h =>
      have hworld : loaded.world = (document.compile start.world).2 := world_load document start
      have hagain : document.compile final.world = (.ok program, final.world) :=
        Document.compile_again h (hworld ▸ hfinal.names)
      refine ⟨?_, ?_, ?_⟩
      · rw [hworld, Document.compile_snd, h]
        exact document.loaded_declareValues (hstart.sound hsound)
      · simp only [loaded, advance, load_of_ok h]
      · rw [load_of_ok (congrArg Prod.fst hagain), hagain]

/-- A document of two values, loaded, played once and loaded again. -/
theorem load_in_run_set_from_other :
    let document : Document :=
      { values := Std.TreeMap.ofList [("x", some (1 : Float)), ("y", none)]
        root := .node { kind := some "set", source := some (.ref "x"), target := some "y" } }
    let program : Program := .set (.read ⟨0⟩) (some ⟨1⟩)
    let loaded := ({} : Scene).advance (.load document)
    let final := loaded.advance (.tick none)
    ({} : Scene).world.Sound ∧ document.Loaded {} loaded.world ∧
      final.load document =
        (.root final.players.size, { final with players := final.players.push { program } }) := by
  intro document program
  have hsound : ({} : Scene).world.Sound := sound_foldl_act []
  have hcompile : (document.compile {}).1 = .ok program := rfl
  clear_value document program
  intro loaded final
  have hrun := (load_in_run {} hsound [] [.tick none] document).2.2
  simp only [List.foldl_nil, hcompile] at hrun
  exact ⟨hsound, hrun.1, hrun.2.2⟩

end Animation.Scene
