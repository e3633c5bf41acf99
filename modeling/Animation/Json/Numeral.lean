import Animation.Decimal.Digits
import Animation.Json.Value

/-!
The numbers of JSON texts, first as they are written and then as values.

The value of a numeral that is not a 64-bit whole number is computed from a
significand of at most 64 bits and a power of ten, with one rounding for each
of the two and one for their product. It is close to the nearest double but is
not always that double.
-/

namespace Animation

/-- A numeral as it is written. Digits are numbers below ten. -/
structure Numeral where
  negative : Bool
  whole : List Nat
  fraction : Option (List Nat)
  /-- Whether the exponent is negative, and its digits. -/
  exponent : Option (Bool × List Nat)
  deriving DecidableEq, Repr

namespace Numeral

open Decimal

/-- A point and at least one digit, or nothing. -/
def fraction? : List Char → Option (Option (List Nat) × List Char)
  | '.' :: text =>
    match digits text with
    | ([], _) => none
    | (places, rest) => some (some places, rest)
  | text => some (none, text)

/-- Reads a whole word as a numeral. A whole part has no leading zero, unless
it is zero. -/
def ofChars? (word : List Char) : Option Numeral := do
  let (negative, text) :=
    match word with
    | '-' :: text => (true, text)
    | text => (false, text)
  let (whole, text) := digits text
  match whole with
  | [] | 0 :: _ :: _ => none
  | _ =>
    let (fraction, text) ← fraction? text
    let (exponent, text) ← exponent? text
    if text.isEmpty then some { negative, whole, fraction, exponent } else none

/-- Appends digits to a significand as long as it stays below `2 ^ 64`, and
gives the digits that are left from the first one that does not fit. -/
def gather : Nat → List Nat → Nat × List Nat
  | significand, [] => (significand, [])
  | significand, d :: rest =>
    if significand * 10 + d < UInt64.size then gather (significand * 10 + d) rest
    else (significand, d :: rest)

def tenPow (exponent : Nat) : Float := Float.ofScientific 1 false exponent

/-- The quotient `significand / 10 ^ exponent`. Powers beyond the greatest that
is a double are taken in steps of `10 ^ 308`. Two such steps leave nothing of any
significand of 64 bits, so no more than two are taken. -/
def scaleDown (significand : Float) (exponent : Nat) : Float :=
  let steps := (exponent - 1) / 308
  (min steps 2).repeat (· / tenPow 308) significand / tenPow (exponent - 308 * steps)

/-- The product `significand * 10 ^ exponent`, if it is finite. Zero may have
any exponent. -/
def scaleUp? (significand : Float) (exponent : Nat) : Option Float :=
  if exponent ≤ 308 then
    let value := significand * tenPow exponent
    if value.isInf then none else some value
  else if significand == 0 then some significand
  else none

/-- The magnitude of a numeral as a double, if it is not too large. Digits of
the whole part that the significand has no room for still count in the power
of ten; digits of the fraction count only if the significand takes them. -/
def magnitude? (numeral : Numeral) : Option Float :=
  let (whole, skipped) := gather 0 numeral.whole
  let places := numeral.fraction.getD []
  let (significand, unused) := gather whole places
  let shift : Int := skipped.length - (places.length - unused.length : Nat)
  let exponent := shift + exponentValue numeral.exponent
  let start := (UInt64.ofNat significand).toFloat
  if exponent < 0 then some (scaleDown start exponent.natAbs)
  else scaleUp? start exponent.natAbs

/-- The magnitude of a numeral that is written as a whole number and fits 64
bits. -/
def wholeMagnitude? (numeral : Numeral) : Option Nat :=
  match numeral.fraction, numeral.exponent, gather 0 numeral.whole with
  | none, none, (magnitude, []) => some magnitude
  | _, _, _ => none

/-- The value of a numeral, or `none` if it is too large for a double. -/
def value? (numeral : Numeral) : Option JsonNumber :=
  match numeral.negative, numeral.wholeMagnitude? with
  | false, some n => some (.natural (UInt64.ofNat n))
  | true, some n =>
    if 0 < n ∧ 2 * n ≤ UInt64.size then some (.negative (UInt64.ofNat n))
    else some (.real (-(UInt64.ofNat n).toFloat))
  | false, none => numeral.magnitude?.map .real
  | true, none => numeral.magnitude?.map fun x => .real (-x)

end Numeral

end Animation
