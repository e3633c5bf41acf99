import Animation.Decimal.Digits
import Animation.Number.Binary64

/-!
Numbers as people type them: a sign or none, digits with or without a point
among them or at either end, and perhaps an exponent; or one of the words
`inf`, `infinity` and `nan` in any case. The result is the nearest double, ties
going to even, so a very large number is read as infinite.
-/

namespace Animation.Decimal

/-- The double nearest to `coefficient * 10 ^ exponent`. Far outside the range
of doubles it is given without computing the power. -/
def nearest (coefficient : Nat) (exponent : Int) : Float :=
  let magnitude := (Nat.toDigits 10 coefficient).length + exponent
  if coefficient = 0 ∨ magnitude < -330 then 0
  else if 310 < magnitude then 1 / 0
  else Float.ofScientific coefficient (exponent < 0) exponent.natAbs

/-- The digits after a point, if the text goes on with one. -/
def places : List Char → List Nat × List Char
  | '.' :: text => digits text
  | text => ([], text)

def unsignedNumber? (text : List Char) : Option Float := do
  let (whole, text) := digits text
  let (fraction, text) := places text
  let (exponent, text) ← exponent? text
  if (whole ++ fraction).isEmpty || !text.isEmpty then none
  else some (nearest (ofDigits (whole ++ fraction)) (exponentValue exponent - fraction.length))

/-- The words for what digits cannot write. -/
def word? (text : List Char) : Option Float :=
  let lower := String.ofList (text.map Char.toLower)
  if lower = "inf" ∨ lower = "infinity" then some (1 / 0)
  else if lower = "nan" then some Number.nan
  else none

/-- Reads a whole text as a number. -/
def read? (text : String) : Option Float :=
  let (negative, text) := signed text.toList
  ((unsignedNumber? text).or (word? text)).map fun x => if negative then -x else x

end Animation.Decimal
