import Animation.Proofs.Expression.Folding
import Animation.Proofs.Number.Order

/-!
Folds that select. `max` and `min` compare what they have so far with the next
value and keep one of the two as it is. A comparison that is not decided keeps
the earlier value; so NaN stays if it comes first and is passed over later on,
and of equal values, the two zeros among them, the first one stays.

Hence the value of such a fold is not just the greatest or the least: it is the
earliest one that no other value beats, bit for bit.
-/

namespace Animation

open Number (Compares)

/-- What a value has to do to an earlier one to be kept in its stead. -/
inductive FoldOp.Prefers : FoldOp → (Float → Float → Prop) → Prop
  | max : Prefers .max (· > ·)
  | min : Prefers .min (· < ·)

/-- Not NaN, and beaten by none of these values that is not NaN. -/
def Unbeaten (beats : Float → Float → Prop) (values : List Float) (value : Float) : Prop :=
  value.isNaN = false ∧ ∀ rival ∈ values, rival.isNaN = false → ¬ beats rival value

/-- The earliest of these values that is not beaten. -/
def Wins (beats : Float → Float → Prop) (values : List Float) (winner : Float) : Prop :=
  ∃ before after, values = before ++ winner :: after ∧ Unbeaten beats values winner ∧
    ∀ earlier ∈ before, ¬ Unbeaten beats values earlier

variable {op : FoldOp} {beats : Float → Float → Prop}

theorem FoldOp.Prefers.compares (h : op.Prefers beats) : Compares beats := by
  cases h with
  | max => exact Number.compares_lt.flip
  | min => exact Number.compares_lt

theorem FoldOp.Prefers.apply_of_beats (h : op.Prefers beats) {soFar next : Float}
    (hbeats : beats next soFar) : op.apply soFar next = next := by
  cases h with
  | max => exact if_pos hbeats
  | min => exact if_pos hbeats

theorem FoldOp.Prefers.apply_of_not_beats (h : op.Prefers beats) {soFar next : Float}
    (hbeats : ¬ beats next soFar) : op.apply soFar next = soFar := by
  cases h with
  | max => exact if_neg hbeats
  | min => exact if_neg hbeats

/-- Nothing beats NaN. -/
theorem FoldOp.Prefers.foldl_nan (h : op.Prefers beats) {first : Float}
    (hnan : first.isNaN = true) (rest : List Float) : rest.foldl op.apply first = first := by
  induction rest with
  | nil => rfl
  | cons next rest ih =>
      have hnot : ¬ beats next first := by
        intro hbeats
        rw [(h.compares.numbers hbeats).2] at hnan
        cases hnan
      rw [List.foldl_cons, h.apply_of_not_beats hnot, ih]

theorem Unbeaten.of_append {values more : List Float} {value : Float}
    (h : Unbeaten beats (values ++ more) value) : Unbeaten beats values value :=
  ⟨h.1, fun rival hrival => h.2 rival (List.mem_append_left _ hrival)⟩

/-- One more value: it wins if it beats the winner so far, else that one stays. -/
theorem Wins.next (h : op.Prefers beats) {values : List Float} {winner : Float}
    (hwins : Wins beats values winner) (next : Float) :
    Wins beats (values ++ [next]) (op.apply winner next) := by
  obtain ⟨before, after, hvalues, hunbeaten, hearlier⟩ := hwins
  have horder := h.compares
  by_cases hbeats : beats next winner
  · rw [h.apply_of_beats hbeats]
    refine ⟨values, [], rfl, ⟨(horder.numbers hbeats).1, ?_⟩, ?_⟩
    · intro rival hrival hnumber hrivals
      rcases List.mem_append.mp hrival with hold | hnew
      · exact hunbeaten.2 rival hold hnumber (horder.trans hrivals hbeats)
      · rw [List.mem_singleton.mp hnew] at hrivals
        exact horder.irrefl next hrivals
    · -- An unbeaten one among the old values would have to be beaten by `next` or beat the winner.
      intro earlier hold hother
      rcases horder.third hbeats hother.1 with hbeaten | hbeating
      · exact hother.2 next (by simp) (horder.numbers hbeats).1 hbeaten
      · exact hunbeaten.2 earlier hold hother.1 hbeating
  · rw [h.apply_of_not_beats hbeats]
    refine ⟨before, after ++ [next], by simp [hvalues], ⟨hunbeaten.1, ?_⟩, ?_⟩
    · intro rival hrival hnumber
      rcases List.mem_append.mp hrival with hold | hnew
      · exact hunbeaten.2 rival hold hnumber
      · rwa [List.mem_singleton.mp hnew]
    · exact fun earlier hold hother => hearlier earlier hold hother.of_append

theorem Wins.foldl (h : op.Prefers beats) {values : List Float} {winner : Float}
    (hwins : Wins beats values winner) (rest : List Float) :
    Wins beats (values ++ rest) (rest.foldl op.apply winner) := by
  induction rest generalizing values winner with
  | nil => rwa [List.append_nil]
  | cons next rest ih =>
      have hnext := ih (hwins.next h next)
      rwa [List.append_assoc] at hnext

theorem wins_singleton (h : op.Prefers beats) {first : Float} (hnumber : first.isNaN = false) :
    Wins beats [first] first := by
  refine ⟨[], [], rfl, ⟨hnumber, ?_⟩, nofun⟩
  intro rival hrival _ hbeats
  rw [List.mem_singleton.mp hrival] at hbeats
  exact h.compares.irrefl first hbeats

namespace Expression

/-- Take a `max` or `min` of any number of operands that compiles, and the
values that its operands have one after the other. If the first one is NaN it
is the result. Otherwise the result is the earliest value that is not NaN and
that no other beats. All else that the pass does is done by the operands. -/
theorem selects_earliest (h : op.Prefers beats) (a b : Expression) (others : List Expression)
    (compiler : Compiler) (program : Program)
    (hcompile : (compiler.compile (fold op a b others)).1 = .ok program) (store : Store) :
    ∃ first rest after events,
      EvaluatesAll (a :: b :: others) store ⟨first :: rest, after, events⟩ ∧
        ∃ result, program.run store = ⟨result, after, events⟩ ∧
          (first.isNaN = true → result = first) ∧
          (first.isNaN = false → Wins beats (first :: rest) result) := by
  have hrun := evaluates_of_compile hcompile store
  obtain ⟨first, rest, ha, hrest, houtcome⟩ := evaluates_fold_iff.mp hrun
  refine ⟨_, _, _, _, .cons ha hrest, _, houtcome, ?_, ?_⟩
  · exact fun hnan => h.foldl_nan hnan rest.value
  · exact fun hnumber => (wins_singleton h hnumber).foldl h rest.value

/-- Of two zeros with NaN and a reading of nothing between them, the first one
is the greatest. -/
theorem selects_earliest_negative_zero :
    let tree : Expression :=
      fold .max (.literal (-0)) (.literal Number.nan) [.external ⟨0⟩, .literal 0]
    let program : Program :=
      .fold .max (.constant (-0)) [.constant Number.nan, .read ⟨0⟩, .constant 0]
    let store : Store := ⟨#[.slot none]⟩
    FoldOp.Prefers .max (· > ·) ∧ (Compiler.compile {} tree).1 = .ok program ∧
      (-0 : Float).isNaN = false ∧ program.run store = ⟨-0, store, [.read ⟨0⟩]⟩ ∧
      Wins (· > ·) [-0, Number.nan, Number.nan, 0] (-0) := by
  intro tree program store
  have hcompile : (Compiler.compile {} tree).1 = .ok program := rfl
  have hnumber : (-0 : Float).isNaN = false := by decide
  have hrun : program.run store = ⟨-0, store, [.read ⟨0⟩]⟩ := rfl
  obtain ⟨first, rest, after, events, hvalues, result, houtcome, -, hwins⟩ :=
    selects_earliest .max _ _ _ {} program hcompile store
  have hoperands : List.Forall₂ Runs
      [.literal (-0), .literal Number.nan, .external ⟨0⟩, .literal 0] _ :=
    .cons (runs_leaf rfl) (.cons (runs_leaf rfl) (.cons (runs_leaf rfl)
      (.cons (runs_leaf rfl) .nil)))
  cases (evaluatesAll_iff hoperands store _).mp hvalues
  cases hrun.symm.trans houtcome
  exact ⟨.max, hcompile, hnumber, hrun, hwins hnumber⟩

end Expression

end Animation
