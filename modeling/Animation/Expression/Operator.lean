import Animation.Expression.Kind
import Animation.Number.Arithmetic

/-!
What the operators do to numbers. Truth values are numbers here: a logical
result is exactly 1 or 0, and any number can be read as a condition.

The elementary functions are the platform's. Their last digit may differ
between platforms, and the logic knows nothing about them except what is
written here: a NaN argument gives NaN before the function is asked.
-/

namespace Animation

open Number

/-- One step of a fold: what has been folded so far, and the next operand. -/
def FoldOp.apply : FoldOp → Float → Float → Float
  | .add, x, y => x + y
  | .sub, x, y => x - y
  | .multiply, x, y => x * y
  | .divide, x, y => x / y
  | .pow, x, y => power x y
  | .modulo, x, y => flooredModulo x y
  | .max, x, y => larger x y
  | .min, x, y => smaller x y
  | .and, x, y => ofBool (isTrue x && isTrue y)
  | .or, x, y => ofBool (isTrue x || isTrue y)

/-- A function of a number that is not NaN. -/
def UnaryOp.applyNumber : UnaryOp → Float → Float
  | .abs, x => x.abs
  | .sqrt, x => x.sqrt
  | .log, x => x.log
  | .sin, x => x.sin
  | .cos, x => x.cos
  | .tan, x => x.tan
  | .acos, x => x.acos
  | .asin, x => x.asin
  | .atan, x => x.atan
  | .exp, x => x.exp
  | .round, x => roundHalfUp x
  | .ceil, x => Number.ceil x
  | .floor, x => Number.floor x
  | .not, x => ofBool (!isTrue x)

/-- Every function but `not` passes NaN on. To `not`, NaN is simply false. -/
def UnaryOp.apply (op : UnaryOp) (x : Float) : Float :=
  if x.isNaN && op != .not then nan else op.applyNumber x

/-- Comparisons follow the order of doubles: with a NaN on either side all are
false but `neq`, and the two zeros are equal. -/
def Comparison.holds : Comparison → Float → Float → Bool
  | .eq, x, y => x == y
  | .neq, x, y => x != y
  | .lessThan, x, y => x < y
  | .greaterThan, x, y => x > y
  | .lessOrEq, x, y => x ≤ y
  | .greaterOrEq, x, y => x ≥ y

def Comparison.apply (op : Comparison) (x y : Float) : Float :=
  ofBool (op.holds x y)

end Animation
