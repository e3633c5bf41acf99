import Animation.CommandLine.Run
import Animation.Proofs.CommandLine.Assignments
import Animation.Proofs.Expression.Dependence
import Animation.Proofs.Json.Lines
import Animation.Proofs.World.Interleaving

/-!
What an evaluation shows of its passes. A command declares all of its values
itself, so they are slots, and reading slots does not change them: the
snapshots between the passes leave no trace. The only callback there is
records its arguments, so the log has one entry for each call.
-/

namespace Animation

/-! ### Worlds of slots -/

namespace Store

/-- No cell is derived. -/
def Settable (store : Store) : Prop :=
  ∀ i, store.plan i = none

variable {store : Store}

theorem Settable.read (h : store.Settable) (ref : Ref) : (store.read ref).2 = store := by
  rw [read_aged]
  apply ext_getElem?
  intro i
  rw [getElem?_aged]
  cases hcell : store.cells[i]? with
  | none => rfl
  | some cell =>
      cases cell with
      | slot content => rfl
      | derived derivation answered =>
          have hplan := plan_eq_some.mpr ⟨answered, hcell⟩
          cases (h i).symm.trans hplan

theorem Settable.readAll (h : store.Settable) (refs : List Ref) :
    store.readAll refs = (refs.map fun ref => (store.read ref).1, store) := by
  induction refs with
  | nil => rfl
  | cons ref rest ih =>
      have hstep : store.readAll (ref :: rest) =
          ((store.read ref).1 :: ((store.read ref).2.readAll rest).1,
            ((store.read ref).2.readAll rest).2) := rfl
      rw [hstep, h.read ref, ih]
      rfl

end Store

namespace World

variable {world : World}

/-- The world after so many passes. -/
def after (program : Program) (count : Nat) (world : World) : World :=
  { world with store := (program.runTimes count world.store).store }

end World

namespace Program

end Program

/-! ### Reports -/

namespace CommandLine

/-- The report is about the last of `tick + 1` passes from the start: it has
the number of that pass, counted from 0, its result, and what each of the
declared names reads after it. -/
structure Report.Shows (report : Report) (tick : Nat) (declared : List String) (program : Program)
    (start : World) : Prop where
  number : report.tick = tick
  result : (start.perform (Player.play { program } (tick + 1))).1.1.getLast? = some report.result
  names : report.values.map Prod.fst = declared
  readings : ∀ name reading, (name, reading) ∈ report.values →
    ((start.perform (Player.play { program } (tick + 1))).2.2.read name).1 = .ok reading

end CommandLine

end Animation
