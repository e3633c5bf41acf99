import Animation.Program

/-!
A player runs one program again and again and counts the passes it has made.
What a pass does is the program's affair; the count is the player's own, and
no other player has a part in it.
-/

namespace Animation

structure Player where
  program : Program
  passes : Nat := 0

namespace Player

/-- One pass, counted. -/
def tick (player : Player) : Pass (Float × Player) := do
  let value ← player.program.run
  pure (value, { player with passes := player.passes + 1 })

/-- Makes `count` passes in a row, all counted. -/
def play (player : Player) (count : Nat) : Pass (List Float × Player) := do
  let values ← player.program.runTimes count
  pure (values, { player with passes := player.passes + count })

/-- One pass of the program on its own, which then goes into a new player. -/
def restart (player : Player) : Pass (Float × Player) := do
  let value ← player.program.run
  pure (value, { program := player.program })

end Player

end Animation
