import Animation.Scene.Basic
import Animation.Store.Description

/-!
What actions do. An action that can fail goes on with whatever its operation
has left behind, so that a refused action changes nothing is a property of the
operations.
-/

namespace Animation.Scene

/-- The place of the player that an action names. -/
def playerIndex (scene : Scene) (player : Option Nat) : Nat :=
  player.getD (scene.players.size - 1)

/-- A new player of this program. -/
def addPlayer (program : Program) (scene : Scene) : Reply × Scene :=
  (.root scene.players.size, { scene with players := scene.players.push { program } })

/-- Takes the snapshot that belongs to an evaluation. -/
def conclude (result : Result) (events : List Event) (scene : Scene) : Reply × Scene :=
  let invocations := Event.invocations events
  if scene.snapshots then
    let (readings, world) := scene.world.snapshot
    (.evaluated result invocations (some readings), { scene with world })
  else
    (.evaluated result invocations none, scene)

/-- Runs a pass of a player, which gives a result and the player after it. -/
def perform {α : Type} (pass : Player → Pass (α × Player)) (result : α → Result)
    (player : Option Nat) (scene : Scene) : Reply × Scene :=
  let index := scene.playerIndex player
  match scene.players[index]? with
  | none => (.noPlayer, scene)
  | some player =>
    let ((value, after), events, world) := scene.world.perform (pass player)
    conclude (result value) events
      { scene with world, players := scene.players.setIfInBounds index after }

/-- Goes on with the outcome of something that may fail. -/
def orRefuse {α : Type} (scene : Scene) (outcome : Except Fault α)
    (next : α → Reply × Scene) : Reply × Scene :=
  match outcome with
  | .ok value => next value
  | .error fault => (.refused fault, scene)

/-- Does something to the world that may fail. The scene goes on with the
world that this leaves, also after a failure. -/
def attempt {α : Type} (scene : Scene) (operation : World → Except Fault α × World)
    (next : α → Scene → Reply × Scene) : Reply × Scene :=
  let (outcome, world) := operation scene.world
  let scene := { scene with world }
  scene.orRefuse outcome fun value => next value scene

/-- Compiles a document, whose program gets a player. -/
def load (document : Document) (scene : Scene) : Reply × Scene :=
  scene.attempt document.compile addPlayer

/-- The reading of the cell of a handle, which is always a slot. -/
def peekHandle (handle : Nat) (scene : Scene) : Reply × Scene :=
  match scene.handles[handle]? with
  | none => (.reading none, scene)
  | some ref =>
    let (reading, store) := scene.world.store.read ref
    (.reading reading, { scene with world := { scene.world with store } })

def act (action : Action) (scene : Scene) : Reply × Scene :=
  match action with
  | .declare name content =>
    let (ref, world) := scene.world.declare name content
    (.handle scene.handles.size, { scene with world, handles := scene.handles.push ref })
  | .derive name derivation =>
    (.done, { scene with world := (scene.world.derive name derivation).2 })
  | .share name other => scene.attempt (World.share name other) fun _ scene => (.done, scene)
  | .bindCallback name callback =>
    let names := scene.world.names.insertCallback name callback
    (.done, { scene with world := { scene.world with names } })
  | .invoke name args =>
    scene.orRefuse (scene.world.names.callback name) fun callback =>
      let (_, events, world) := scene.world.perform (Pass.invoke callback args)
      conclude .nothing events { scene with world }
  | .put handle content =>
    match scene.handles[handle]? with
    | none => (.reading none, scene)
    | some ref =>
      let store := scene.world.store.put ref content
      peekHandle handle { scene with world := { scene.world with store } }
  | .peek handle => peekHandle handle scene
  | .assign name value =>
    scene.attempt (World.assign name value) fun taken scene => (.written taken, scene)
  | .read name =>
    scene.attempt (World.read name) fun reading scene => (.reading reading, scene)
  | .containsValue name => (.present (scene.world.names.containsValue name), scene)
  | .findCallback name =>
    scene.orRefuse (scene.world.names.callback name) fun _ => (.done, scene)
  | .describe name =>
    scene.orRefuse (scene.world.names.value name) fun ref =>
      (.description (scene.world.store.describe ref), scene)
  | .snapshot =>
    let (readings, world) := scene.world.snapshot
    (.readings readings, { scene with world })
  | .load text =>
    match Document.ofText? text with
    | none => (.refused .malformed, scene)
    | some document => scene.load document
  | .keep name text =>
    match Document.ofText? text with
    | none => (.refused .malformed, scene)
    | some document =>
      (.done, { scene with documents := scene.documents.insert name document })
  | .compileKept name =>
    match scene.documents[name]? with
    | none => (.noDocument, scene)
    | some document => scene.load document
  | .useCompiler limits => (.done, { scene with compiler := { limits } })
  | .compile expression .fresh =>
    scene.orRefuse (expression.compile {}) fun program => addPlayer program scene
  | .compile expression .reused =>
    let (outcome, compiler) := scene.compiler.compile expression
    let scene := { scene with compiler }
    scene.orRefuse outcome fun program => addPlayer program scene
  | .constant value => addPlayer (.constant value) scene
  | .tick player => perform Player.tick .one player scene
  | .play count player => perform (fun player => player.play count) .many player scene
  | .passes player =>
    match scene.players[scene.playerIndex player]? with
    | none => (.noPlayer, scene)
    | some player => (.passes player.passes, scene)
  | .restart player => perform Player.restart .one player scene

end Animation.Scene
