import Animation.Decimal.Shortest

/-!
How numbers are written. All layouts use the shortest digits that read back
and always show a fraction in plain notation; they differ in where scientific
notation takes over and in its signs.
-/

namespace Animation

structure Layout where
  tie : Decimal.Tie
  /-- The least and the greatest exponent of the first digit for which plain
  notation is used. -/
  least : Int
  greatest : Int
  /-- Whether a positive exponent has a sign. -/
  plus : Bool

namespace Layout

/-- Numbers in reports and other JSON. -/
def json : Layout := { tie := .toEven, least := -5, greatest := 15, plus := true }

/-- Numbers in descriptions of values and in the log. -/
def plain : Layout := { tie := .up, least := -4, greatest := 15, plus := false }

def zeros (count : Nat) : List Char := List.replicate count '0'

/-- Plain notation, for digits of which the first has this exponent. -/
def positional (digits : List Char) (leading : Int) : List Char :=
  if leading < 0 then
    '0' :: '.' :: zeros (leading.natAbs - 1) ++ digits
  else
    let whole := leading.toNat + 1
    if digits.length ≤ whole then
      digits ++ zeros (whole - digits.length) ++ ['.', '0']
    else
      digits.take whole ++ '.' :: digits.drop whole

/-- Scientific notation. A single digit stands without a point. -/
def scientific (plus : Bool) (digits : List Char) (leading : Int) : List Char :=
  let fraction :=
    match digits.drop 1 with
    | [] => []
    | rest => '.' :: rest
  let sign := if leading < 0 then ['-'] else if plus then ['+'] else []
  digits.take 1 ++ fraction ++ 'e' :: sign ++ Nat.toDigits 10 leading.natAbs

/-- A positive decimal. -/
def decimal (layout : Layout) (value : Decimal) : List Char :=
  let digits := Nat.toDigits 10 value.coefficient
  let leading := value.exponent + digits.length - 1
  if layout.least ≤ leading ∧ leading ≤ layout.greatest then positional digits leading
  else scientific layout.plus digits leading

/-- The text of a double. -/
def write (layout : Layout) (x : Float) : String :=
  let sign := if Number.signBit x then "-" else ""
  match Number.parts x with
  | .nan => "NaN"
  | .infinite _ => sign ++ "inf"
  | .finite _ 0 => sign ++ "0.0"
  | .finite .. =>
    sign ++ String.ofList (layout.decimal (Decimal.shortest layout.tie (Number.pattern x)))

end Layout

end Animation
