import Animation.Number.Binary64

/-!
The shortest decimal that reads back as a given double. A decimal reads back
as the double in whose interval it lies: the interval reaches half-way to the
two neighbours, and contains its ends if the double's pattern is even, because
reading resolves ties that way.

Decimals with a given number of digits form a grid. The first grid, from the
coarsest on, that has a point in the interval gives the shortest decimal, and
if a grid has a point there, one of the two points next to the double is in it.
Everything is compared exactly, in halves of the least double.
-/

namespace Animation

/-- The number `coefficient * 10 ^ exponent`. -/
structure Decimal where
  coefficient : Nat
  exponent : Int
  deriving DecidableEq, Repr

namespace Decimal

/-- Which of two equally near decimals is chosen. -/
inductive Tie where
  | toEven
  | up
  deriving DecidableEq, Repr

/-- Whether `point`, in halves of a unit times `scale`, lies in the interval of
the double with this pattern. -/
def insideInterval (pattern scale point : Nat) : Bool :=
  let low := (Number.unitsOfPattern (pattern - 1) + Number.unitsOfPattern pattern) * scale
  let high := (Number.unitsOfPattern pattern + Number.unitsOfPattern (pattern + 1)) * scale
  if pattern % 2 = 0 then low ≤ point && point ≤ high else low < point && point < high

/-- The nearest multiple of `10 ^ exponent` that lies in the interval of the
double with this pattern, if there is any. -/
def onGrid? (tie : Tie) (pattern : Nat) (exponent : Int) : Option Nat :=
  let scale := Nat.pow 10 (-exponent).toNat
  let step := Nat.pow 10 exponent.toNat * (2 * Number.one)
  let value := 2 * Number.unitsOfPattern pattern * scale
  let below := value / step
  let above := below + 1
  match insideInterval pattern scale (below * step),
      insideInterval pattern scale (above * step) with
  | false, false => none
  | true, false => some below
  | false, true => some above
  | true, true =>
    match compare (value - below * step) (above * step - value) with
    | .lt => some below
    | .gt => some above
    | .eq => if tie = .toEven ∧ below % 2 = 0 then some below else some above

def digitCount (n : Nat) : Nat := (Nat.toDigits 10 n).length

/-- The exponent of the first digit of a positive number of units. -/
def leadingExponent (units : Nat) : Int :=
  if Number.one ≤ units then digitCount (units / Number.one) - 1
  else -(digitCount (Number.one / units) : Int)

/-- The same decimal without zeros at the end of the coefficient. At most
`count` zeros are taken away. -/
def dropZeros : Nat → Decimal → Decimal
  | 0, decimal => decimal
  | count + 1, decimal =>
    if decimal.coefficient % 10 = 0 then
      dropZeros count ⟨decimal.coefficient / 10, decimal.exponent + 1⟩
    else decimal

/-- How many digits always suffice for a double. -/
def mostDigits : Nat := 17

/-- The shortest decimal for the positive double with this pattern. -/
def shortest (tie : Tie) (pattern : Nat) : Decimal :=
  let leading := leadingExponent (Number.unitsOfPattern pattern)
  let found := (List.range mostDigits).findSome? fun (places : Nat) =>
    let exponent := leading - places
    (onGrid? tie pattern exponent).map (Decimal.mk · exponent)
  dropZeros mostDigits (found.getD ⟨0, 0⟩)

end Decimal

end Animation
