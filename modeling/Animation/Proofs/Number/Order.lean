import Animation.Number.Arithmetic
import Mathlib

/-!
The order of doubles. NaN is neither less than anything nor greater. All other
doubles have a rank in a linear order, and one double is less than another
exactly when its rank is. The two zeros are different doubles of one rank.
-/

namespace Animation.Number

open Float.Model (UnpackedFloat)

/-- The sign comes first and then the magnitude, the other way around for
negative numbers. What rank NaN has does not matter. -/
def rankOfUnpacked : UnpackedFloat → ℤ ×ₗ ℤ ×ₗ ℤ
  | .infinity .negative => toLex (-2, toLex (0, 0))
  | .finite .negative mantissa exponent _ => toLex (-1, toLex (-exponent, -mantissa))
  | .zero _ | .notANumber => toLex (0, toLex (0, 0))
  | .finite .positive mantissa exponent _ => toLex (1, toLex (exponent, mantissa))
  | .infinity .positive => toLex (2, toLex (0, 0))

def rank (x : Float) : ℤ ×ₗ ℤ ×ₗ ℤ :=
  rankOfUnpacked x.toModel.unpack

/-- Magnitudes are compared by their exponents, and by their mantissas where
these are the same. -/
theorem magnitude_lt (e f : ℤ) (m n : ℕ) :
    (compare e f).then (compare m n) = .lt ↔ e < f ∨ e = f ∧ m < n := by
  rw [Ordering.then_eq_lt, compare_lt_iff_lt, compare_lt_iff_lt, compare_eq_iff_eq]

theorem magnitude_gt (e f : ℤ) (m n : ℕ) :
    (compare e f).then (compare m n) = .gt ↔ f < e ∨ e = f ∧ n < m := by
  rw [Ordering.then_eq_gt, compare_gt_iff_gt, compare_gt_iff_gt, compare_eq_iff_eq]

theorem unpacked_lt_iff (x y : UnpackedFloat) :
    x.lt y = true ↔
      x.isNaN = false ∧ y.isNaN = false ∧ rankOfUnpacked x < rankOfUnpacked y := by
  have hsigns : compare UnpackedFloat.Sign.negative .positive = .lt := rfl
  -- One case for each pair of forms. Only magnitudes of equal sign are not settled by the forms.
  rcases x with (_ | _) | _ | _ | ⟨_ | _, m, e, _⟩ <;>
    rcases y with (_ | _) | _ | _ | ⟨_ | _, n, f, _⟩ <;>
    simp [UnpackedFloat.lt, UnpackedFloat.compare, UnpackedFloat.isNaN, rankOfUnpacked,
      Prod.Lex.toLex_lt_toLex, hsigns, magnitude_lt, magnitude_gt]

theorem lt_iff_unpacked (x y : Float) : x < y ↔ x.toModel.unpack.lt y.toModel.unpack = true := by
  change decide _ = true ↔ _
  rw [decide_eq_true_eq]
  rfl

theorem le_iff_unpacked (x y : Float) : x ≤ y ↔ x.toModel.unpack.le y.toModel.unpack = true := by
  change decide _ = true ↔ _
  rw [decide_eq_true_eq]
  rfl

/-- Being less is being less in rank, for all doubles but NaN. -/
theorem lt_iff (x y : Float) :
    x < y ↔ x.isNaN = false ∧ y.isNaN = false ∧ rank x < rank y := by
  rw [lt_iff_unpacked, unpacked_lt_iff]
  rfl

/-- Comparing magnitudes the other way around turns the outcome around. -/
theorem magnitude_swap (e f : ℤ) (m n : ℕ) :
    (compare e f).then (compare m n) = ((compare f e).then (compare n m)).swap := by
  rw [Ordering.swap_then, ← Std.OrientedCmp.eq_swap, ← Std.OrientedCmp.eq_swap]

theorem unpacked_le_iff (x y : UnpackedFloat) :
    x.le y = true ↔ x.isNaN = false ∧ y.isNaN = false ∧ ¬ y.lt x = true := by
  have hsign : ∀ sign : UnpackedFloat.Sign, compare sign sign = .eq := by
    intro sign
    cases sign <;> rfl
  have hsigns : compare UnpackedFloat.Sign.negative .positive = .lt ∧
      compare UnpackedFloat.Sign.positive .negative = .gt := ⟨rfl, rfl⟩
  -- As above, but two cases are left, in which finite numbers have equal signs.
  rcases x with (_ | _) | _ | _ | ⟨_ | _, m, e, _⟩ <;>
    rcases y with (_ | _) | _ | _ | ⟨_ | _, n, f, _⟩ <;>
    simp [UnpackedFloat.le, UnpackedFloat.lt, UnpackedFloat.compare, UnpackedFloat.isNaN, hsign,
      hsigns]
  all_goals
    rw [magnitude_swap]
    cases (compare f e).then (compare n m) <;> simp

/-- Being at most is not being greater, for all doubles but NaN. -/
theorem le_iff (x y : Float) :
    x ≤ y ↔ x.isNaN = false ∧ y.isNaN = false ∧ ¬ y < x := by
  rw [le_iff_unpacked, lt_iff_unpacked, unpacked_le_iff]
  rfl

/-- A comparison that is false of NaN and a strict weak order of all other
doubles: where one beats another, a third is beaten or beats as well. -/
structure Compares (beats : Float → Float → Prop) : Prop where
  numbers {x y : Float} : beats x y → x.isNaN = false ∧ y.isNaN = false
  irrefl (x : Float) : ¬ beats x x
  trans {x y z : Float} : beats x y → beats y z → beats x z
  third {x y z : Float} : beats x y → z.isNaN = false → beats x z ∨ beats z y

theorem compares_lt : Compares (· < ·) where
  numbers h := ⟨((lt_iff _ _).mp h).1, ((lt_iff _ _).mp h).2.1⟩
  irrefl x h := lt_irrefl _ ((lt_iff x x).mp h).2.2
  trans {x y z} hxy hyz := by
    obtain ⟨hx, -, hfirst⟩ := (lt_iff x y).mp hxy
    obtain ⟨-, hz, hsecond⟩ := (lt_iff y z).mp hyz
    exact (lt_iff x z).mpr ⟨hx, hz, hfirst.trans hsecond⟩
  third {x y z} hxy hz := by
    obtain ⟨hx, hy, hrank⟩ := (lt_iff x y).mp hxy
    rcases lt_or_ge (rank x) (rank z) with hless | hge
    · exact .inl ((lt_iff x z).mpr ⟨hx, hz, hless⟩)
    · exact .inr ((lt_iff z y).mpr ⟨hz, hy, hge.trans_lt hrank⟩)

theorem Compares.flip {beats : Float → Float → Prop} (h : Compares beats) :
    Compares fun x y => beats y x where
  numbers hbeats := (h.numbers hbeats).symm
  irrefl := h.irrefl
  trans hxy hyz := h.trans hyz hxy
  third hxy hz := (h.third hxy hz).symm

end Animation.Number
