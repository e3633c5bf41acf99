import Animation.Number.Binary64

/-!
The arithmetic of expressions that a double's own operations do not give:
truth, remainders, rounding to whole numbers, and selection.

Remainders and roundings are computed on units, so they are exact. The
elementary functions of the platform appear in `Expression.Operator`; nothing
here depends on them except `power`.
-/

namespace Animation.Number

/-- A number counts as true unless it is a zero of either sign or NaN. -/
def isTrue (x : Float) : Bool := x != 0 && !x.isNaN

/-- Truth as a number: 1 or 0. -/
def ofBool (b : Bool) : Float := if b then 1 else 0

theorem isTrue_ofBool (b : Bool) : isTrue (ofBool b) = b := by
  cases b <;> decide

theorem isTrue_nan : isTrue nan = false := by decide

/-- The remainder of the quotient rounded toward zero. It is exact and has the
sign of `x`, also when it is zero. -/
def remainder (x y : Float) : Float :=
  match parts x, parts y with
  | .nan, _ | _, .nan | .infinite _, _ => nan
  | .finite .., .infinite _ => x
  | .finite negative m, .finite _ n => if n = 0 then nan else ofUnits negative (m % n)

/-- The remainder moved toward the sign of the divisor by adding the divisor
and reducing once more. The sum is rounded like any other sum. -/
def flooredModulo (x y : Float) : Float :=
  remainder (remainder x y + y) y

/-- The greatest whole number that is at most `x`. -/
def floor (x : Float) : Float :=
  match parts x with
  | .finite false units => ofUnits false (units / one * one)
  | .finite true units => ofUnits true ((units + (one - 1)) / one * one)
  | _ => x

/-- The least whole number that is at least `x`. -/
def ceil (x : Float) : Float :=
  match parts x with
  | .finite false units => ofUnits false ((units + (one - 1)) / one * one)
  | .finite true units => ofUnits true (units / one * one)
  | _ => x

/-- The nearest whole number, a half going up. A zero result keeps the sign of
`x`, so small negative numbers round to negative zero. -/
def roundHalfUp (x : Float) : Float :=
  let low := floor x
  let rounded := if x - low ≥ 0.5 then low + 1 else low
  if rounded == 0 then ofUnits (signBit x) 0 else rounded

/-- A NaN exponent, and an infinite exponent of a base of magnitude one, give
NaN. Elsewhere this is the platform's power. -/
def power (base exponent : Float) : Float :=
  if exponent.isNaN || (base.abs == 1 && exponent.isInf) then nan
  else Float.pow base exponent

/-- The later number only where it is strictly larger, so an undecided
comparison keeps the earlier one. -/
def larger (previous current : Float) : Float :=
  if current > previous then current else previous

/-- The later number only where it is strictly smaller. -/
def smaller (previous current : Float) : Float :=
  if current < previous then current else previous

end Animation.Number
