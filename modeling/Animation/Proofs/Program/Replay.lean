import Animation.Player
import Animation.Proofs.Pass

/-!
The events of a pass are all that it does. A store that goes through them one
after the other ends up as the pass leaves it, and on the way it is what the
rest of the pass has before it. So what holds of single events holds of whole
passes, and at every point of them.
-/

namespace Animation

namespace Store

/-- What an event does to a store. A call does nothing by itself, since what
the callback stores are events of their own. -/
def happen (store : Store) : Event → Store
  | .read source => (store.read source).2
  | .write target value => store.put target (some value)
  | .call _ _ => store

def replay (events : List Event) (store : Store) : Store :=
  events.foldl happen store

theorem replay_append (early late : List Event) (store : Store) :
    store.replay (early ++ late) = (store.replay early).replay late :=
  List.foldl_append

theorem replay_writes (writes : List (Ref × Float)) (store : Store) :
    store.replay (Event.ofWrites writes) = store.putEach writes :=
  List.foldl_map

end Store

namespace Pass

variable {α β : Type}

/-- The pass leaves the store that its events lead to. -/
def Replays (pass : Pass α) : Prop :=
  ∀ store, (pass store).store = store.replay (pass store).events

theorem replays_pure (value : α) : Replays (pure value) := fun _ => rfl

theorem Replays.bind {first : Pass α} {next : α → Pass β} (hfirst : first.Replays)
    (hnext : ∀ value, (next value).Replays) : (first >>= next).Replays := by
  intro store
  rw [bind_apply, Store.replay_append, ← hfirst]
  exact hnext _ _

theorem Replays.map {pass : Pass α} (hpass : pass.Replays) (convert : α → β) :
    (convert <$> pass).Replays :=
  hpass

theorem replays_read (source : Ref) : (read source).Replays := fun _ => rfl

theorem replays_write (target : Ref) (value : Float) : (write target value).Replays :=
  fun _ => rfl

theorem replays_invoke (callback : Callback) (args : List Float) :
    (invoke callback args).Replays := by
  intro store
  rw [invoke_apply]
  exact (Store.replay_writes _ store).symm

end Pass

namespace Program

open Pass

mutual

theorem replays_run : ∀ program : Program, program.run.Replays
  | .constant value => replays_pure value
  | .read source => replays_read source
  | .fold _ first rest =>
    (replays_run first).bind fun _ => (replays_runAll rest).bind fun _ => replays_pure _
  | .unary _ v => (replays_run v).bind fun _ => replays_pure _
  | .compare _ left right =>
    (replays_run left).bind fun _ => (replays_run right).bind fun _ => replays_pure _
  | .cond expr ifNode elseNode => by
    refine (replays_run expr).bind fun test => ?_
    split
    · exact replays_run ifNode
    · exact replays_run elseNode
  | .set source target => by
    refine (replays_run source).bind fun value => ?_
    cases target with
    | none => exact replays_pure _
    | some cell => exact (replays_write cell value).bind fun _ => replays_pure _
  | .block nodes => (replays_runAll nodes).bind fun _ => replays_pure _
  | .call args callback => by
    refine (replays_runAll args).bind fun values => ?_
    cases callback with
    | none => exact replays_pure _
    | some host => exact (replays_invoke host values).bind fun _ => replays_pure _

theorem replays_runAll : ∀ programs : List Program, (runAll programs).Replays
  | [] => replays_pure []
  | program :: rest => (replays_run program).bind fun _ => (replays_runAll rest).map _

end

theorem replays_runTimes (program : Program) (count : Nat) : (program.runTimes count).Replays := by
  induction count with
  | zero => exact replays_pure []
  | succ count ih => exact (replays_run program).bind fun _ => ih.map _

end Program

namespace Player

theorem replays_tick (player : Player) : player.tick.Replays :=
  (Program.replays_run player.program).bind fun _ => Pass.replays_pure _

theorem replays_play (player : Player) (count : Nat) : (player.play count).Replays :=
  (Program.replays_runTimes player.program count).bind fun _ => Pass.replays_pure _

theorem replays_restart (player : Player) : player.restart.Replays :=
  (Program.replays_run player.program).bind fun _ => Pass.replays_pure _

end Player

end Animation
