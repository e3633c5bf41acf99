import Animation.Proofs.Pass
import Animation.Player

/-!
To play is to tick again and again: the same results, stores and events, and the
same player in the end. So it makes no difference where a series of passes is
interrupted, as long as it goes on with the player and the store that are left.
-/

namespace Animation.Player

/-- Ticks this often. Each tick is of the player that the one before gives back. -/
def ticks : Nat → Player → Pass (List Float × Player)
  | 0, player => pure ([], player)
  | count + 1, player => do
    let (value, next) ← player.tick
    let (values, last) ← ticks count next
    pure (value :: values, last)

variable (player : Player)

theorem play_zero : player.play 0 = pure ([], player) := by
  simp only [play, Program.runTimes, pure_bind, Nat.add_zero]

theorem play_succ (count : Nat) :
    player.play (count + 1) = (do
      let (value, next) ← player.tick
      let (values, last) ← next.play count
      pure (value :: values, last)) := by
  simp only [play, tick, Program.runTimes, map_eq_pure_bind, bind_assoc, pure_bind,
    Nat.add_comm count 1, Nat.add_assoc]

theorem play_eq_ticks (count : Nat) : player.play count = player.ticks count := by
  induction count generalizing player with
  | zero => exact player.play_zero
  | succ count ih => simp only [play_succ, ticks, ih]

theorem play_add (early late : Nat) :
    player.play (early + late) = (do
      let (first, next) ← player.play early
      let (second, last) ← next.play late
      pure (first ++ second, last)) := by
  induction early generalizing player with
  | zero =>
      simp only [Nat.zero_add, play_zero, pure_bind, List.nil_append]
      exact (bind_pure _).symm
  | succ early ih =>
      simp only [Nat.succ_add, play_succ, ih, bind_assoc, pure_bind, List.cons_append]

theorem length_play (count : Nat) (store : Store) :
    (player.play count store).value.1.length = count := by
  induction count generalizing player store with
  | zero => rfl
  | succ count ih =>
      rw [play_succ]
      exact congrArg Nat.succ (ih _ _)

/-- A pass of the program is the pass that a tick of its player makes. -/
theorem run_eq_tick : player.program.run = Prod.fst <$> player.tick := by
  simp only [tick, map_eq_pure_bind, bind_assoc, pure_bind, bind_pure]

end Animation.Player
