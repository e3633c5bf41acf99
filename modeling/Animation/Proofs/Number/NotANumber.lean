import Animation.Expression.Operator
import Animation.Proofs.Number.Order
import Animation.Proofs.Number.Units

/-!
NaN as an operand. Sums, differences, products, quotients and both remainders
are NaN if either operand is. The functions of one number pass NaN on: the
platform's because they are not asked about it, and those that are computed
here because their comparisons come out as they do.
-/

namespace Animation

namespace Number

open Float.Model (UnpackedFloat)

variable {x y : Float}

theorem isNaN_iff_unpacked : x.isNaN = true ↔ x.toModel.unpack = .notANumber :=
  UnpackedFloat.isNaN_iff

theorem isNaN_nan : nan.isNaN = true := by decide

theorem parts_eq_nan (h : x.isNaN = true) : parts x = .nan := by
  have hmatches := matches_parts x
  rw [isNaN_iff_unpacked.mp h] at hmatches
  generalize parts x = found at hmatches
  cases hmatches
  rfl

/-- An operation on unpacked operands that keeps NaN from either side. -/
structure KeepsNaN (operation : UnpackedFloat → UnpackedFloat → UnpackedFloat) : Prop where
  left (other : UnpackedFloat) : operation .notANumber other = .notANumber
  right (other : UnpackedFloat) : operation other .notANumber = .notANumber

theorem KeepsNaN.isNaN {operation : UnpackedFloat → UnpackedFloat → UnpackedFloat}
    (hkeeps : KeepsNaN operation) (h : x.isNaN = true ∨ y.isNaN = true) {result : Float}
    (hresult : result.toModel =
      Float.Model.pack (operation x.toModel.unpack y.toModel.unpack)) :
    result.isNaN = true := by
  have hnan : operation x.toModel.unpack y.toModel.unpack = .notANumber := by
    rw [isNaN_iff_unpacked, isNaN_iff_unpacked] at h
    rcases h with h | h <;> rw [h]
    · exact hkeeps.left _
    · exact hkeeps.right _
  rw [isNaN_iff_unpacked, hresult, hnan]
  exact UnpackedFloat.unpack_packedNaN

theorem keepsNaN_add : KeepsNaN (UnpackedFloat.add .binary64) where
  left other := by cases other <;> rfl
  right other := by cases other <;> rfl

theorem keepsNaN_sub : KeepsNaN (UnpackedFloat.sub .binary64) where
  left other := by cases other <;> rfl
  right other := by cases other <;> rfl

theorem keepsNaN_mul : KeepsNaN (UnpackedFloat.mul .binary64) where
  left other := by cases other <;> rfl
  right other := by cases other <;> rfl

theorem keepsNaN_div : KeepsNaN (UnpackedFloat.div .binary64) where
  left other := by cases other <;> rfl
  right other := by cases other <;> rfl

theorem isNaN_add (h : x.isNaN = true ∨ y.isNaN = true) : (x + y).isNaN = true :=
  keepsNaN_add.isNaN h rfl

theorem isNaN_sub (h : x.isNaN = true ∨ y.isNaN = true) : (x - y).isNaN = true :=
  keepsNaN_sub.isNaN h rfl

theorem isNaN_mul (h : x.isNaN = true ∨ y.isNaN = true) : (x * y).isNaN = true :=
  keepsNaN_mul.isNaN h rfl

theorem isNaN_div (h : x.isNaN = true ∨ y.isNaN = true) : (x / y).isNaN = true :=
  keepsNaN_div.isNaN h rfl

theorem isNaN_remainder (h : x.isNaN = true ∨ y.isNaN = true) : (remainder x y).isNaN = true := by
  have hnan : remainder x y = nan := by
    unfold remainder
    rcases h with h | h
    · rw [parts_eq_nan h]
    · rw [parts_eq_nan h]
      cases parts x <;> rfl
  rw [hnan, isNaN_nan]

theorem isNaN_flooredModulo (h : x.isNaN = true ∨ y.isNaN = true) :
    (flooredModulo x y).isNaN = true := by
  rcases h with h | h
  · exact isNaN_remainder (.inl (isNaN_add (.inl (isNaN_remainder (.inl h)))))
  · exact isNaN_remainder (.inr h)

theorem floor_nan (h : x.isNaN = true) : floor x = x := by
  rw [floor, parts_eq_nan h]

theorem ceil_nan (h : x.isNaN = true) : ceil x = x := by
  rw [ceil, parts_eq_nan h]

theorem isNaN_abs (h : x.isNaN = true) : x.abs.isNaN = true := by
  rw [isNaN_iff_unpacked] at *
  change (Float.Model.pack x.toModel.unpack.abs).unpack = _
  rw [h]
  exact UnpackedFloat.unpack_packedNaN

theorem isNaN_sqrt (h : x.isNaN = true) : x.sqrt.isNaN = true := by
  rw [isNaN_iff_unpacked] at *
  change (Float.Model.pack (UnpackedFloat.sqrt .binary64 x.toModel.unpack)).unpack = _
  rw [h]
  exact UnpackedFloat.unpack_packedNaN

/-- The fractional part of NaN is not at least a half, and NaN is no zero. -/
theorem roundHalfUp_nan (h : x.isNaN = true) : roundHalfUp x = x := by
  have hhalf : ¬ x - x ≥ 0.5 := by
    intro hle
    have hnumber := ((le_iff _ _).mp hle).2.1
    rw [isNaN_sub (.inl h)] at hnumber
    cases hnumber
  have hzero : (x == 0) = false := by
    change x.toModel.unpack.beq _ = false
    rw [isNaN_iff_unpacked.mp h]
    rfl
  simp only [roundHalfUp, floor_nan h, if_neg hhalf, hzero, Bool.false_eq_true, if_false]

end Number

/-- The operators of arithmetic. Powers are not among them: of NaN with the
exponent zero, nothing is said here. -/
def FoldOp.arithmetic : List FoldOp := [.add, .sub, .multiply, .divide, .modulo]

theorem FoldOp.isNaN_apply {op : FoldOp} (hop : op ∈ arithmetic) {x y : Float}
    (h : x.isNaN = true ∨ y.isNaN = true) : (op.apply x y).isNaN = true := by
  cases op with
  | add => exact Number.isNaN_add h
  | sub => exact Number.isNaN_sub h
  | multiply => exact Number.isNaN_mul h
  | divide => exact Number.isNaN_div h
  | modulo => exact Number.isNaN_flooredModulo h
  | _ => simp [arithmetic] at hop

/-- Once it is there, NaN survives all that is folded after it. -/
theorem FoldOp.isNaN_foldl {op : FoldOp} (hop : op ∈ arithmetic) {soFar : Float}
    {values : List Float} (h : soFar.isNaN = true ∨ ∃ value ∈ values, value.isNaN = true) :
    (values.foldl op.apply soFar).isNaN = true := by
  induction values generalizing soFar with
  | nil =>
      rcases h with h | ⟨value, hvalue, -⟩
      · exact h
      · cases hvalue
  | cons next values ih =>
      apply ih
      rcases h with h | ⟨value, hvalue, hnan⟩
      · exact .inl (isNaN_apply hop (.inl h))
      · rcases List.mem_cons.mp hvalue with rfl | hrest
        · exact .inl (isNaN_apply hop (.inr hnan))
        · exact .inr ⟨value, hrest, hnan⟩

theorem UnaryOp.isNaN_apply {op : UnaryOp} (hop : op ≠ .not) {x : Float} (h : x.isNaN = true) :
    (op.apply x).isNaN = true := by
  have hguard : (x.isNaN && op != .not) = true := by
    rw [h, Bool.true_and]
    exact bne_iff_ne.mpr hop
  rw [apply, if_pos hguard, Number.isNaN_nan]

/-- The functions that the platform does not bring. -/
def UnaryOp.computed : List UnaryOp := [.abs, .sqrt, .round, .ceil, .floor]

/-- NaN goes through these by itself: without the question whether there is a
number at all they would give NaN as well. -/
theorem UnaryOp.isNaN_applyNumber {op : UnaryOp} (hop : op ∈ computed) {x : Float}
    (h : x.isNaN = true) : (op.applyNumber x).isNaN = true := by
  cases op with
  | abs => exact Number.isNaN_abs h
  | sqrt => exact Number.isNaN_sqrt h
  | round => rw [applyNumber, Number.roundHalfUp_nan h, h]
  | ceil => rw [applyNumber, Number.ceil_nan h, h]
  | floor => rw [applyNumber, Number.floor_nan h, h]
  | _ => simp [computed] at hop

end Animation
