import Animation.Proofs.Compiler.Outcome
import Animation.Proofs.World
import Animation.Scene.Act

/-!
An action that fails has not happened. The scene after it is the scene before
it, names and cells, players and compiler alike; derived cells, which notice
when they are read, have noticed nothing. Hence actions that fail can be left
out of a run without a difference to the rest of it.
-/

namespace Animation.Scene

/-- Replies that say that an action could not be done. -/
def Reply.isFailure : Reply → Bool
  | .refused _ | .noPlayer | .noDocument | .written false => true
  | _ => false

/-- Where the reply is a failure, the scene is as it was. -/
def Excused (scene : Scene) (outcome : Reply × Scene) : Prop :=
  outcome.1.isFailure = true → outcome.2 = scene

theorem excused_addPlayer (scene before : Scene) (program : Program) :
    Excused before (addPlayer program scene) := by
  intro h
  cases h

theorem excused_conclude (scene before : Scene) (result : Result) (events : List Event) :
    Excused before (conclude result events scene) := by
  intro h
  unfold conclude at h
  split at h <;> cases h

theorem excused_peekHandle (scene before : Scene) (handle : Nat) :
    Excused before (peekHandle handle scene) := by
  intro h
  unfold peekHandle at h
  split at h <;> cases h

theorem excused_orRefuse {α : Type} {scene : Scene} {outcome : Except Fault α}
    {next : α → Reply × Scene} (hnext : ∀ value, outcome = .ok value → Excused scene (next value)) :
    Excused scene (scene.orRefuse outcome next) := by
  intro h
  cases outcome with
  | ok value => exact hnext value rfl h
  | error fault => rfl

theorem excused_attempt {α : Type} {scene : Scene} {operation : World → Except Fault α × World}
    {next : α → Scene → Reply × Scene} (hoperation : World.Atomic operation)
    (hnext : ∀ value, (operation scene.world).1 = .ok value →
      Excused scene (next value { scene with world := (operation scene.world).2 })) :
    Excused scene (scene.attempt operation next) := by
  intro h
  unfold attempt at h ⊢
  cases houtcome : (operation scene.world).1 with
  | ok value =>
      simp only [houtcome, orRefuse] at h ⊢
      exact hnext value houtcome h
  | error fault =>
      have hworld := hoperation scene.world fault houtcome
      simp only [houtcome, orRefuse, hworld]

theorem excused_load (document : Document) (scene : Scene) :
    Excused scene (scene.load document) := by
  apply excused_attempt (World.atomic_compile document)
  intro _ _
  exact excused_addPlayer _ _ _

theorem excused_perform {α : Type} (pass : Player → Pass (α × Player)) (result : α → Result)
    (player : Option Nat) (scene : Scene) :
    Excused scene (perform pass result player scene) := by
  cases hplayer : scene.players[scene.playerIndex player]? with
  | none =>
      intro _
      simp only [perform, hplayer]
  | some found =>
      simp only [perform, hplayer]
      exact excused_conclude _ _ _ _

/-- A failing action changes nothing, whatever the scene. -/
theorem excused_act (scene : Scene) (action : Action) : Excused scene (scene.act action) := by
  cases action with
  | share name other =>
      apply excused_attempt (World.atomic_share name other)
      intro _ _ h
      cases h
  | assign name value =>
      apply excused_attempt (World.atomic_assign name value)
      intro taken htaken h
      cases taken with
      | true => cases h
      | false => simp only [World.assign_not_taken htaken]
  | read name =>
      apply excused_attempt (World.atomic_read name)
      intro _ _ h
      cases h
  | load text | compileKept text =>
      simp only [act]
      split
      · intro _
        rfl
      · exact excused_load _ scene
  | keep name text =>
      simp only [act]
      split
      · intro _
        rfl
      · intro h
        cases h
  | invoke name args =>
      apply excused_orRefuse
      intro _ _
      exact excused_conclude _ _ _ _
  | findCallback name | describe name =>
      apply excused_orRefuse
      intro _ _ h
      cases h
  | compile expression route =>
      cases route with
      | fresh =>
          apply excused_orRefuse
          intro _ _
          exact excused_addPlayer _ _ _
      | reused =>
          simp only [act, Compiler.compile_snd]
          apply excused_orRefuse
          intro _ _
          exact excused_addPlayer _ _ _
  | tick player | play count player | restart player => exact excused_perform _ _ player scene
  | passes player =>
      simp only [act]
      split
      · intro _
        rfl
      · intro h
        cases h
  | put handle content =>
      simp only [act]
      split
      · intro h
        cases h
      · exact excused_peekHandle _ _ _
  | peek handle => exact excused_peekHandle _ _ _
  | constant value => exact excused_addPlayer _ _ _
  | declare _ _ | derive _ _ | bindCallback _ _ | containsValue _ | snapshot | useCompiler _ =>
      intro h
      cases h

def Reply.invocations : Reply → List (String × List Float)
  | .evaluated _ invocations _ => invocations
  | _ => []

/-- A scene together with all recorded invocations so far. -/
structure Record where
  scene : Scene := {}
  log : List (String × List Float) := []

namespace Record

def act (action : Action) (record : Record) : Reply × Record :=
  let (reply, scene) := record.scene.act action
  (reply, { scene, log := record.log ++ reply.invocations })

def run : List Action → Record → List Reply × Record
  | [], record => ([], record)
  | action :: rest, record =>
    let (reply, after) := record.act action
    let (replies, final) := run rest after
    (reply :: replies, final)

/-- The actions of a run that do not fail in it. -/
def succeeding : List Action → Record → List Action
  | [], _ => []
  | action :: rest, record =>
    let (reply, after) := record.act action
    if reply.isFailure then succeeding rest after else action :: succeeding rest after

theorem act_of_isFailure {record : Record} {action : Action}
    (h : (record.act action).1.isFailure = true) : (record.act action).2 = record := by
  have hscene : (record.scene.act action).2 = record.scene := excused_act record.scene action h
  have hlog : (record.scene.act action).1.invocations = [] := by
    cases hreply : (record.scene.act action).1 with
    | evaluated _ _ _ =>
        simp only [act, hreply] at h
        cases h
    | _ => rfl
  simp only [act, hscene, hlog, List.append_nil]

theorem run_succeeding (actions : List Action) (record : Record) :
    record.run (succeeding actions record) =
      ((record.run actions).1.filter fun reply => !reply.isFailure, (record.run actions).2) := by
  induction actions generalizing record with
  | nil => rfl
  | cons action rest ih =>
      cases hfailure : (record.act action).1.isFailure with
      | true =>
          have hafter := act_of_isFailure hfailure
          simp only [succeeding, run, hfailure, if_true, hafter, List.filter_cons, Bool.not_true,
            Bool.false_eq_true, if_false]
          exact ih record
      | false =>
          simp only [succeeding, run, hfailure, Bool.false_eq_true, if_false, ih, List.filter_cons,
            Bool.not_false, if_true]

/-- From every state on, an action that fails leaves all of it as it was, and
a run is the same without the actions that fail in it. Below the actions, no
document that fails to compile changes the world, not even a cell that it was
staged with, and a compiler comes back the same from every tree. -/
theorem failure_leaves_no_trace (record : Record) (actions : List Action) :
    (∀ action, (record.act action).1.isFailure = true → (record.act action).2 = record) ∧
      record.run (succeeding actions record) =
        ((record.run actions).1.filter fun reply => !reply.isFailure, (record.run actions).2) ∧
      (∀ document : Document, ∀ fault, (document.compile record.scene.world).1 = .error fault →
        (document.compile record.scene.world).2 = record.scene.world ∧
          ∀ i < record.scene.world.store.cells.size,
            (document.declareValues record.scene.world).store.cells[i]? =
              record.scene.world.store.cells[i]?) ∧
      ∀ (compiler : Compiler) (expression : Expression),
        (compiler.compile expression).2 = compiler := by
  refine ⟨fun _ => act_of_isFailure, run_succeeding actions record, ?_, Compiler.compile_snd⟩
  intro document fault h
  refine ⟨World.atomic_compile document record.scene.world fault h, ?_⟩
  exact (document.declares record.scene.world).untouched

end Record

end Animation.Scene
