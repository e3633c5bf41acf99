import Animation.Proofs.Expression.Folding
import Animation.Proofs.Number.Rounding

/-!
The range of floored modulo. The remainder is exact, and the sum with the
divisor has the divisor's sign, so what is left of it after the second
reduction lies between zero and the divisor. But the sum may overflow, and the
remainder of an infinity is NaN: two finite numbers do not always have a
floored modulo. They do where the divisor is less than half of what is out of
range.
-/

namespace Animation.Number

/-- A finite number from zero up to the divisor, which is not included, or from
zero down to it. -/
structure InRange (divisor x : Float) : Prop where
  finite : x.isFinite = true
  positive : 0 < divisor → 0 ≤ x ∧ x < divisor
  negative : divisor < 0 → divisor < x ∧ x ≤ 0

/-- `2 ^ 1023`, or its negative. -/
def halfRange (negative : Bool) : Float := ofUnits negative (one <<< 1023)

theorem two_pow_mul {a b c d : ℕ} (h : a + b = c + d) : 2 ^ a * 2 ^ b = 2 ^ c * 2 ^ d := by
  rw [← pow_add, ← pow_add, h]

theorem mul_two_pow_succ (units : ℕ) {power next : ℕ} (h : next = power + 1) :
    units * 2 ^ next = 2 * (units * 2 ^ power) := by
  rw [h, pow_succ]
  ring

theorem shiftLeft_shiftLeft {a b c d : ℕ} (h : a + b = c + d) :
    (1 <<< a) <<< b = 2 ^ c * 2 ^ d := by
  rw [Nat.shiftLeft_eq, Nat.one_shiftLeft, two_pow_mul h]

theorem units_halfRange : one <<< 1023 = 2 ^ 52 * 2 ^ 2045 :=
  shiftLeft_shiftLeft (by decide : 1074 + 1023 = 52 + 2045)

theorem parts_halfRange (negative : Bool) :
    parts (halfRange negative) = .finite negative (2 ^ 52 * 2 ^ 2045) := by
  rw [halfRange, units_halfRange]
  exact parts_ofUnits ⟨2 ^ 52, 2045, by decide, by decide, rfl⟩ negative

theorem parts_zero : parts 0 = .finite false 0 := by decide

theorem isNaN_of_parts {x : Float} {negative : Bool} {units : ℕ}
    (h : parts x = .finite negative units) : x.isNaN = false :=
  (h ▸ matches_parts x).isNaN_of_finite

section

variable {x y : Float} {negative other : Bool} {m n : ℕ}

theorem remainder_of_infinite (hx : parts x = .infinite negative) : remainder x y = nan := by
  rw [remainder, hx]
  cases parts y <;> rfl

/-- With the divisor's sign and fewer units, a number is in range. -/
theorem inRange_of_parts (hx : parts x = .finite other m) (hy : parts y = .finite other n)
    (h : m < n) : InRange y x where
  finite := isFinite_iff.mpr ⟨other, m, hx⟩
  positive hpos := by
    rw [lt_iff_units parts_zero hy] at hpos
    rw [le_iff, lt_iff_units hx hy, lt_iff_units hx parts_zero]
    refine ⟨⟨isNaN_of_parts parts_zero, isNaN_of_parts hx, ?_⟩, ?_⟩ <;>
      cases other <;> simp [signed] at * <;> omega
  negative hneg := by
    rw [lt_iff_units hy parts_zero] at hneg
    rw [le_iff, lt_iff_units hy hx, lt_iff_units parts_zero hx]
    refine ⟨?_, isNaN_of_parts hx, isNaN_of_parts parts_zero, ?_⟩ <;>
      cases other <;> simp [signed] at * <;> omega

/-- The remainder does not reach the divisor, so it cannot turn its sign. -/
theorem sign_moved {sign : Bool} {units : ℕ} (hn : n ≠ 0)
    (h : signed sign units = signed negative (m % n) + signed other n) : sign = other := by
  have hless := Nat.mod_lt m (Nat.pos_of_ne_zero hn)
  cases sign <;> cases negative <;> cases other <;> simp [signed] at h ⊢ <;> omega

theorem moved_ne_zero (hn : n ≠ 0) : signed negative (m % n) + signed other n ≠ 0 := by
  have hless := Nat.mod_lt m (Nat.pos_of_ne_zero hn)
  cases negative <;> cases other <;> simp only [signed, if_true, if_false, Bool.false_eq_true] <;>
    omega

/-- Moved by the divisor, the remainder has the divisor's sign. -/
theorem parts_moved (hx : parts x = .finite negative m) (hy : parts y = .finite other n)
    (hn : n ≠ 0) :
    parts (remainder x y + y) = .infinite other ∨
      ∃ units, parts (remainder x y + y) = .finite other units := by
  obtain ⟨sign, units, htotal, hsum⟩ := parts_add (parts_remainder hx hy hn) hy (moved_ne_zero hn)
  rwa [sign_moved hn htotal] at hsum

end

section

variable {x y : Float}

theorem exists_parts_divisor (hy : y.isFinite = true) (hzero : y < 0 ∨ 0 < y) :
    ∃ other n, parts y = .finite other n ∧ n ≠ 0 := by
  obtain ⟨other, n, hparts⟩ := isFinite_iff.mp hy
  refine ⟨other, n, hparts, ?_⟩
  rintro rfl
  rw [lt_iff_units hparts parts_zero, lt_iff_units parts_zero hparts] at hzero
  cases other <;> simp [signed] at hzero

theorem flooredModulo_inRange (hx : x.isFinite = true) (hy : y.isFinite = true)
    (hzero : y < 0 ∨ 0 < y) (hmoved : (remainder x y + y).isFinite = true) :
    InRange y (flooredModulo x y) := by
  obtain ⟨negative, m, hx⟩ := isFinite_iff.mp hx
  obtain ⟨other, n, hy, hn⟩ := exists_parts_divisor hy hzero
  obtain ⟨sign, units, hsum⟩ := isFinite_iff.mp hmoved
  have hsign : sign = other := by
    rcases parts_moved hx hy hn with h | ⟨_, h⟩ <;> rw [hsum] at h <;> cases h
    rfl
  subst hsign
  exact inRange_of_parts (parts_remainder hsum hy hn) hy (Nat.mod_lt _ (Nat.pos_of_ne_zero hn))

theorem flooredModulo_eq_nan (hx : x.isFinite = true) (hy : y.isFinite = true)
    (hzero : y < 0 ∨ 0 < y) (hmoved : (remainder x y + y).isFinite = false) :
    flooredModulo x y = nan := by
  obtain ⟨negative, m, hx⟩ := isFinite_iff.mp hx
  obtain ⟨other, n, hy, hn⟩ := exists_parts_divisor hy hzero
  rcases parts_moved hx hy hn with hsum | ⟨units, hsum⟩
  · exact remainder_of_infinite hsum
  · rw [isFinite_iff.mpr ⟨other, units, hsum⟩] at hmoved
    cases hmoved

/-- Less than half the range, the divisor does not take the sum out of it. -/
theorem isFinite_moved (hx : x.isFinite = true) (hy : y.isFinite = true)
    (hzero : y < 0 ∨ 0 < y) (hbelow : halfRange true < y) (habove : y < halfRange false) :
    (remainder x y + y).isFinite = true := by
  obtain ⟨negative, m, hx⟩ := isFinite_iff.mp hx
  obtain ⟨other, n, hy, hn⟩ := exists_parts_divisor hy hzero
  have hhalf : n < 2 ^ 53 * 2 ^ 2044 := by
    rw [lt_iff_units (parts_halfRange true) hy] at hbelow
    rw [lt_iff_units hy (parts_halfRange false)] at habove
    rw [two_pow_mul (show 53 + 2044 = 52 + 2045 by decide)]
    generalize 2 ^ 52 * 2 ^ 2045 = half at hbelow habove ⊢
    cases other <;> simp [signed] at hbelow habove <;> omega
  have hleast : n ≤ (2 ^ 53 - 1) * 2 ^ 2044 := (exact_of_parts hy).le_of_lt hhalf
  have hgreatest : greatest = 2 * ((2 ^ 53 - 1) * 2 ^ 2044) := mul_two_pow_succ _ (by decide)
  apply isFinite_add (parts_remainder hx hy hn) hy (moved_ne_zero hn)
  have hless := Nat.mod_lt m (Nat.pos_of_ne_zero hn)
  rw [hgreatest]
  generalize (2 ^ 53 - 1) * 2 ^ 2044 = least at hleast ⊢
  cases negative <;> cases other <;>
    simp only [signed, if_true, if_false, Bool.false_eq_true] <;> omega

end

end Animation.Number

namespace Animation.Expression

open Number

/-- Let a modulo of two operands compile, and let their values in a pass be
finite, the second one not zero. The value of the pass is in range if moving
the remainder by the divisor gives a finite sum, and NaN if it does not. The
sum is finite for all divisors between `-2 ^ 1023` and `2 ^ 1023`. -/
theorem modulo_in_range {compiler : Compiler} {program : Program} {a b : Expression} {store : Store}
    {first second : Outcome Float}
    (hcompile : (compiler.compile (fold .modulo a b [])).1 = .ok program)
    (ha : a.Evaluates store first) (hb : b.Evaluates first.store second)
    (hx : first.value.isFinite = true) (hy : second.value.isFinite = true)
    (hzero : second.value < 0 ∨ 0 < second.value) :
    let moved := remainder first.value second.value + second.value
    let result := (program.run store).value
    (moved.isFinite = true → InRange second.value result) ∧
      (moved.isFinite = false → result = nan) ∧
      (halfRange true < second.value → second.value < halfRange false →
        moved.isFinite = true) := by
  intro moved result
  have hfold : (fold .modulo a b []).Evaluates store
      ⟨flooredModulo first.value second.value, second.store, first.events ++ second.events⟩ :=
    evaluates_fold_iff.mpr ⟨first, _, ha, .cons hb .nil, by simp [FoldOp.apply]⟩
  have hresult : result = flooredModulo first.value second.value := by
    have hrun := (runs_of_compile hcompile store _).mp hfold
    exact congrArg Outcome.value hrun
  rw [hresult]
  exact ⟨flooredModulo_inRange hx hy hzero, flooredModulo_eq_nan hx hy hzero,
    isFinite_moved hx hy hzero⟩

/-- A negative divisor takes a positive number to a negative one. -/
theorem modulo_in_range_minus_three :
    let program : Program := .fold .modulo (.constant 7) [.constant (-3)]
    ((({} : Compiler).compile (fold .modulo (.literal 7) (.literal (-3)) [])).1 = .ok program ∧
      InRange (-3) (program.run ⟨#[]⟩).value) := by
  intro program
  have hcompile : (({} : Compiler).compile (fold .modulo (.literal 7) (.literal (-3)) [])).1 =
      .ok program := rfl
  have hseven : (literal 7).Evaluates ⟨#[]⟩ ⟨7, ⟨#[]⟩, []⟩ := .literal
  have hrange := modulo_in_range hcompile hseven .literal (by decide) (by decide) (by decide)
  exact ⟨hcompile, hrange.1 (hrange.2.2 (by decide +kernel) (by decide +kernel))⟩

/-- The greatest double below `2 ^ 1023` is in range of `2 ^ 1023` as it is, but
has no floored modulo by it. -/
theorem modulo_overflows :
    let x := Float.ofBits 0x7fdfffffffffffff
    let y := Float.ofBits 0x7fe0000000000000
    let program : Program := .fold .modulo (.constant x) [.constant y]
    x.isFinite = true ∧ y.isFinite = true ∧ 0 < y ∧ x < y ∧
      (({} : Compiler).compile (fold .modulo (.literal x) (.literal y) [])).1 = .ok program ∧
      (flooredModulo x y).isFinite = false ∧ (program.run ⟨#[]⟩).value.isFinite = false := by
  intro x y program
  have hvalue : (program.run ⟨#[]⟩).value = flooredModulo x y := rfl
  have hoverflow : (flooredModulo x y).isFinite = false := by decide +kernel
  exact ⟨by decide, by decide, by decide, by decide, rfl, hoverflow, hvalue ▸ hoverflow⟩

end Animation.Expression
